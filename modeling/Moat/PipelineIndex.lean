-- The index of published versions: locations, the entries of a frame, and the
-- merge by LSN.
import Moat.FrameDecode
import Moat.Io

namespace moat_engine.pipeline

open byte_list moat_common
open moat_engine.frame (Metadata RecordKind)

/-- Where the newest version of a key stands. `segment` numbers the attached extents. -/
structure Location where
  segment : Nat
  frame_offset : Nat
  frame_len : Nat
  metadata_len : Nat
  ordinal : Nat
  lsn : UInt64
  value_offset : Nat
  value_len : Nat
  kind : RecordKind
deriving DecidableEq

/-- The fields `index` and `keys` of a pipeline: the newest location of every key, and the keys in
the order in which they were first inserted. -/
structure Index where
  locations : AList (fun _ : ChunkId => Location)
  keys : List ChunkId

def Index.empty : Index := ⟨∅, []⟩

def Index.get (index : Index) (key : ChunkId) : Option Location := index.locations.lookup key

def Index.len (index : Index) : Nat := index.locations.entries.length

/-- The index entries of a frame in extent `segment`, one for each record. -/
def entries (metadata : Metadata) (segment : Nat) : List (ChunkId × Location) :=
  metadata.records.zipIdx.map (fun e =>
    (e.1.descriptor.key,
      { segment
        frame_offset := metadata.header.position.offset
        frame_len := metadata.header.frame_len
        metadata_len := metadata.header.metadata_len
        ordinal := e.2
        lsn := e.1.descriptor.lsn
        value_offset := e.1.descriptor.value_offset
        value_len := e.1.descriptor.value_len
        kind := e.1.descriptor.kind }))

/-- One turn of the loop of `apply`: a newer LSN replaces, a new key is appended. -/
def apply_entry (index : Index) (e : ChunkId × Location) : Index :=
  match index.get e.1 with
  | some old =>
    if e.2.lsn > old.lsn then { index with locations := index.locations.insert e.1 e.2 } else index
  | none => ⟨index.locations.insert e.1 e.2, index.keys ++ [e.1]⟩

def apply (index : Index) (es : List (ChunkId × Location)) : Index := es.foldl apply_entry index

theorem apply_append (index : Index) (a b : List (ChunkId × Location)) :
    apply index (a ++ b) = apply (apply index a) b := by
  simp [apply]

/-- Some entries were merged into `i`. -/
def Index.Grown (i j : Index) : Prop := ∃ es, j = apply i es

theorem Index.Grown.refl (i : Index) : i.Grown i := ⟨[], rfl⟩

theorem Index.Grown.trans {i j k : Index} : i.Grown j → j.Grown k → i.Grown k := by
  rintro ⟨a, rfl⟩ ⟨b, rfl⟩
  exact ⟨a ++ b, (apply_append i a b).symm⟩

end moat_engine.pipeline
