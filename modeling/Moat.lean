import Moat.Bytes
import Moat.CacheDirectory
import Moat.CacheHistory
import Moat.CacheLoop
import Moat.Delivery
import Moat.EngineCursor
import Moat.EngineReady
import Moat.FrameAdmission
import Moat.FramePanics
import Moat.FrameVerify
import Moat.FrameWrite
import Moat.Layout
import Moat.MemoryPins
import Moat.PipelineHistory
import Moat.PipelineWrites
import Moat.SegmentEncoder
import Moat.StoreBudget
import Moat.StoreFlush
import Moat.StoreHeadroom
import Moat.StoreReplies
import Moat.UringLaws
