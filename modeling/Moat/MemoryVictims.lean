-- How each policy picks the node to evict: the search ends, what it returns is
-- linked and not pinned, and it gives up only when nothing can be evicted.
import Moat.MemoryMoves

namespace moat_cache_memory

open checked slab links Option

variable {K V P : Type} {st st' : State} {nodes nodes' : Nodes K V P} {q q' : Fin 3 → List Nat}
  {id : Nat} {n : Node K V P}

/-! ## Frequencies -/

theorem record_count (nodes : Nodes K V P) (id frequency j : Nat) :
    ((nodes.count id frequency).get j).map Node.record = (nodes.get j).map Node.record := by
  rw [Nodes.count, Slab.get_modify]
  split
  · rw [map_map]
    rfl
  · rfl

theorem weightOf_count (nodes : Nodes K V P) (id frequency : Nat) :
    weightOf (nodes.count id frequency) = weightOf nodes :=
  funext fun j => weightOf_congr (record_count nodes id frequency j)

theorem get_count (hn : nodes.get id = some n) (frequency : Nat) :
    (nodes.count id frequency).get id = some { n with frequency := frequency } := by
  rw [Nodes.count, Slab.get_modify, if_pos rfl, hn]
  rfl

theorem heat_count (hn : nodes.get id = some n) (frequency : Nat) :
    State.heat (nodes.count id frequency) + n.frequency = State.heat nodes + frequency :=
  Slab.total_modify hn fun n => { n with frequency := frequency }

/-- Counting a hit moves no node. -/
theorem Rep.count (h : Rep st nodes q) (id frequency : Nat) :
    Rep st (nodes.count id frequency) q where
  linked := fun i => (h.linked i).congr fun j _ => by
    rw [linkOf, linkOf, Nodes.count, Slab.get_modify]
    split
    · rw [map_map]
      rfl
    · rfl
  queued := fun i j => by
    rw [h.queued, Nodes.count, Slab.get_modify]
    split
    · simp
    · rfl
  weighed := by rw [weightOf_count]; exact h.weighed
  hand := h.hand

theorem Sound.count (h : Sound st nodes q) (id frequency : Nat) :
    Sound st (nodes.count id frequency) q :=
  ⟨h.toRep.count id frequency, h.ghost, h.sketch, h.sketched, h.shape⟩

theorem Sound.with_hand (h : Sound st nodes q) {hand : Option Nat}
    (hh : ∀ id, hand = some id → id ∈ q 0) : Sound { st with hand := hand } nodes q :=
  ⟨⟨h.linked, h.queued, h.weighed, hh⟩, h.ghost, h.sketch, h.sketched, h.shape⟩

theorem Sound.with_ghost (h : Sound st nodes q) {ghost : Ghost} (hg : ghost.Good) :
    Sound { st with ghost := ghost } nodes q :=
  ⟨⟨h.linked, h.queued, h.weighed, h.hand⟩, hg, h.sketch, h.sketched, h.shape⟩

/-- A hit under the shared lock only counts. -/
theorem Sound.access_shared (h : Sound st nodes q) (hid : Queued q id)
    (hm : st.policy.mutable_hits = false) :
    ∃ nodes', st.access_shared nodes id = some nodes' ∧ Turn st nodes st nodes' q := by
  obtain ⟨i, hi⟩ := hid
  obtain ⟨n, hn, -⟩ := h.get hi
  unfold State.access_shared
  rw [hn, bind_some]
  have hcount : ∀ f, Turn st nodes st (nodes.count id f) q := fun f =>
    ⟨h.count id f, rfl, rfl, record_count nodes id f⟩
  cases hp : st.policy with
  | Fifo => exact ⟨nodes, rfl, h, rfl, rfl, fun _ => rfl⟩
  | Sieve | S3Fifo => exact ⟨_, rfl, hcount _⟩
  | Lru | Lfu => rw [hp] at hm; cases hm

/-! ## The searches -/

/-- What a search for a victim returns: a linked node that is not pinned, or nothing when no node
can be evicted. -/
structure Found (pins : Bool) (r : Option Nat) (q : Fin 3 → List Nat) : Prop where
  some_queued : ∀ id, r = some id → Queued q id ∧ (pins = true → id ∉ q 2)
  none_empty : r = none → q 0 = [] ∧ q 1 = [] ∧ (pins = false → q 2 = [])

theorem Rep.head_queued (h : Rep st nodes q) {i : Fin 3} (hh : (st.lists i).head = some id) :
    id ∈ q i := (h.linked i).head_mem hh

theorem Rep.empty (h : Rep st nodes q) {i : Fin 3} (hh : (st.lists i).head = none) : q i = [] := by
  have hl := h.linked i
  rw [hh] at hl
  exact hl.eq_nil

/-- Heads of lists are victims, if every list with nodes that may go is asked. -/
theorem Found.of_heads (h : Rep st nodes q) {pins : Bool} {r : Option Nat}
    (hs : ∀ id, r = some id → ∃ i, (st.lists i).head = some id ∧ (pins = true → i ≠ 2))
    (hn : r = none → (st.lists 0).head = none ∧ (st.lists 1).head = none ∧
      (pins = false → q 2 = [])) : Found pins r q := by
  refine ⟨fun id hr => ?_, fun hr => ?_⟩
  · obtain ⟨i, hi, hpin⟩ := hs id hr
    have hm := h.head_queued hi
    exact ⟨⟨i, hm⟩, fun hp h2 => hpin hp (h.unique hm h2)⟩
  · obtain ⟨h0, h1, h2⟩ := hn hr
    exact ⟨h.empty h0, h.empty h1, h2⟩

variable (h : Sound st nodes q)
include h

/-- The hand stops at a node: each node it passes loses its mark. -/
theorem Sound.sweep {fuel : Nat} (hp : st.policy = .Sieve) (hf : State.heat nodes < fuel) :
    ∃ r st' nodes', State.sweep fuel st nodes = some (r, st', nodes') ∧ Turn st nodes st' nodes' q ∧
      Found false r q := by
  induction fuel generalizing st nodes with
  | zero => omega
  | succ _ ih =>
    have hshape := h.shape
    rw [Shape, hp] at hshape
    unfold State.sweep
    cases hr : st.hand.or (st.lists 0).head with
    | none =>
      rw [or_eq_none_iff] at hr
      refine ⟨none, st, nodes, rfl, ⟨h, rfl, rfl, fun _ => rfl⟩,
        ⟨fun id hid => (by cases hid), fun _ => ⟨h.empty hr.2, hshape.1, fun _ => hshape.2⟩⟩⟩
    | some id =>
      have hid : id ∈ q 0 := by
        rcases or_eq_some_iff.mp hr with hh | ⟨-, hh⟩
        · exact h.hand id hh
        · exact h.head_queued hh
      obtain ⟨n, hn, -⟩ := h.get hid
      have hnext : ∀ j, n.next = some j → j ∈ q 0 := fun j hj =>
        (h.linked 0).next_of_mem hid (by rw [linkOf, hn]; rfl) hj
      have h1 : Sound { st with hand := n.next } (nodes.count id 0) q :=
        (h.with_hand hnext).count id 0
      simp only [hn, bind_some]
      by_cases hz : n.frequency = 0
      · rw [if_pos hz]
        refine ⟨some id, _, _, rfl, ⟨h1, rfl, rfl, record_count nodes id 0⟩,
          ⟨?_, fun hid => by cases hid⟩⟩
        rintro _ ⟨⟩
        exact ⟨⟨0, hid⟩, fun hl => by cases hl⟩
      · rw [if_neg hz]
        have hheat := heat_count hn 0
        obtain ⟨r, st2, nodes2, h2, ht2, hfound⟩ := ih h1 hp (by omega)
        exact ⟨r, st2, nodes2, h2, ⟨ht2.sound, ht2.policy, ht2.capacity, fun j =>
          (ht2.record j).trans (record_count nodes id 0 j)⟩, hfound⟩

/-- A node that gets a second chance moves to the end of the main queue, cooler than before. -/
theorem Sound.chance {c : S3FifoConfig} (hp : st.policy = .S3Fifo c) (hid : Queued q id)
    (hn : nodes.get id = some n) {frequency : Nat} (hlt : frequency < n.frequency) :
    ∃ st' nodes' q', st.move_to (nodes.count id frequency) id 1 = some (st', nodes') ∧
      Turn st nodes st' nodes' q' ∧ (∀ x, Queued q' x ↔ Queued q x) ∧
      State.heat nodes' < State.heat nodes := by
  obtain ⟨st1, nodes1, h1, ht1, hs1, -⟩ :=
    (h.count id frequency).move_to (get_count hn frequency) (i := 1) (by rw [hp]; rfl)
  refine ⟨st1, nodes1, _, h1, ⟨ht1.sound, ht1.policy, ht1.capacity, fun j =>
    (ht1.record j).trans (record_count nodes id frequency j)⟩, h.queued_move hid 1, ?_⟩
  have hheat : State.heat nodes1 = State.heat (nodes.count id frequency) := hs1.heat
  have hcount := heat_count hn frequency
  omega

/-- The second chances end: each one cools a node. -/
theorem Sound.second {small fuel : Nat} {c : S3FifoConfig}
    (hp : st.policy = .S3Fifo c) (hf : State.heat nodes < fuel) :
    ∃ r st' nodes' q', State.second small fuel st nodes = some (r, st', nodes') ∧
      Turn st nodes st' nodes' q' ∧ (∀ x, Queued q' x ↔ Queued q x) ∧ Found false r q' := by
  induction fuel generalizing st nodes q with
  | zero => omega
  | succ fuel ih =>
    have hshape := h.shape
    rw [Shape, hp] at hshape
    -- one more round after a second chance
    have hagain : ∀ {id : Nat} {n : Node K V P} {frequency : Nat}, Queued q id →
        nodes.get id = some n → frequency < n.frequency →
        ∃ r st' nodes' q', ((st.move_to (nodes.count id frequency) id 1).bind fun p =>
          State.second small fuel p.1 p.2) = some (r, st', nodes') ∧
          Turn st nodes st' nodes' q' ∧ (∀ x, Queued q' x ↔ Queued q x) ∧ Found false r q' := by
      intro id n frequency hid hn hlt
      obtain ⟨st1, nodes1, q1, h1, ht1, hq1, hheat⟩ := h.chance hp hid hn hlt
      obtain ⟨r, st2, nodes2, q2, h2, ht2, hq2, hfound⟩ :=
        ih ht1.sound (ht1.policy.trans hp) (by omega)
      refine ⟨r, st2, nodes2, q2, ?_, ⟨ht2.sound, ht2.policy.trans ht1.policy,
        ht2.capacity.trans ht1.capacity, fun j => (ht2.record j).trans (ht1.record j)⟩,
        fun x => (hq2 x).trans (hq1 x), hfound⟩
      rw [h1, bind_some]
      exact h2
    unfold State.second
    split
    · rename_i id hhead
      have hid : id ∈ q 0 := by
        split at hhead
        · exact h.head_queued hhead
        · cases hhead
      obtain ⟨n, hn, -⟩ := h.get hid
      rw [hn, bind_some]
      by_cases hhot : 1 < n.frequency
      · rw [if_pos hhot]
        exact hagain ⟨0, hid⟩ hn (by omega)
      · rw [if_neg hhot]
        obtain ⟨ghost, hghost, hgood, -⟩ := h.ghost.push n.record.hash n.record.weight
        rw [hghost]
        refine ⟨some id, _, _, q, rfl, ⟨(h.with_ghost hgood).count id 0, rfl, rfl,
          record_count nodes id 0⟩, fun _ => .rfl, ⟨?_, fun hr => by cases hr⟩⟩
        rintro _ ⟨⟩
        exact ⟨⟨0, hid⟩, fun hl => by cases hl⟩
    · rename_i hsmall
      cases hhead : (st.lists 1).head with
      | none =>
        rw [hhead, if_pos (.inr rfl)] at hsmall
        refine ⟨none, st, nodes, q, rfl, ⟨h, rfl, rfl, fun _ => rfl⟩, fun _ => .rfl,
          ⟨fun id hid => (by cases hid), fun _ => ⟨h.empty hsmall, h.empty hhead, fun _ => hshape⟩⟩⟩
      | some id =>
        have hid := h.head_queued hhead
        obtain ⟨n, hn, -⟩ := h.get hid
        simp only [hn, bind_some]
        by_cases hz : n.frequency = 0
        · rw [if_pos hz]
          refine ⟨some id, st, nodes, q, rfl, ⟨h, rfl, rfl, fun _ => rfl⟩, fun _ => .rfl,
            ⟨?_, fun hr => by cases hr⟩⟩
          rintro _ ⟨⟩
          exact ⟨⟨1, hid⟩, fun hl => by cases hl⟩
        · rw [if_neg hz]
          exact hagain ⟨1, hid⟩ hn (by omega)

/-- The contest is decided by the two estimates; a candidate that wins moves on. -/
theorem Sound.contest {c : LfuConfig} (hp : st.policy = .Lfu c)
    {candidate victim : Nat} (hc : candidate ∈ q 0) (hv : victim ∈ q 1) :
    ∃ r st' nodes' q', st.contest nodes candidate victim = some (r, st', nodes') ∧
      Turn st nodes st' nodes' q' ∧ (∀ x, Queued q' x ↔ Queued q x) ∧ Found false r q' := by
  obtain ⟨s, hs⟩ := isSome_iff_exists.mp (h.sketched c hp)
  obtain ⟨cn, hcn, -⟩ := h.get hc
  obtain ⟨vn, hvn, -⟩ := h.get hv
  obtain ⟨fresh, hfresh⟩ := (h.sketch s hs).estimate cn.record.hash
  obtain ⟨old, hold⟩ := (h.sketch s hs).estimate vn.record.hash
  simp only [State.contest, hs, hcn, hvn, hfresh, hold, bind_some]
  have hqueued : ∀ {p : Fin 3 → List Nat} {id : Nat}, Queued p id → Found false (some id) p := by
    intro p id hid
    refine ⟨?_, fun hr => by cases hr⟩
    rintro _ ⟨⟩
    exact ⟨hid, fun hl => by cases hl⟩
  by_cases hlt : old < fresh
  · rw [if_pos hlt]
    obtain ⟨st1, nodes1, h1, ht1, -, -⟩ := h.move_to hcn (i := 1) (by rw [hp]; rfl)
    have hq := h.queued_move ⟨0, hc⟩ 1
    exact ⟨some victim, st1, nodes1, _, by rw [h1]; rfl, ht1, hq, hqueued ((hq victim).mpr ⟨1, hv⟩)⟩
  · rw [if_neg hlt]
    exact ⟨some candidate, st, nodes, q, rfl, ⟨h, rfl, rfl, fun _ => rfl⟩, fun _ => .rfl,
      hqueued ⟨0, hc⟩⟩

/-- Every policy finds a victim whenever there is one. -/
theorem Sound.victim :
    ∃ r st' nodes' q', st.victim nodes = some (r, st', nodes') ∧ Turn st nodes st' nodes' q' ∧
      (∀ x, Queued q' x ↔ Queued q x) ∧ Found st.policy.pins r q' ∧
      (st.policy.pins = true → q' = q) := by
  have hshape := h.shape
  -- the searches that only read the heads of the lists
  have hread : ∀ {r : Option Nat}, Found st.policy.pins r q → ∃ r' st' nodes' q',
      some (r, st, nodes) = some (r', st', nodes') ∧ Turn st nodes st' nodes' q' ∧
      (∀ x, Queued q' x ↔ Queued q x) ∧ Found st.policy.pins r' q' ∧
      (st.policy.pins = true → q' = q) := fun hfound =>
    ⟨_, st, nodes, q, rfl, ⟨h, rfl, rfl, fun _ => rfl⟩, fun _ => .rfl, hfound, fun _ => rfl⟩
  unfold State.victim
  cases hp : st.policy with
  | Fifo =>
    rw [Shape, hp] at hshape
    rw [hp] at hread
    refine hread (.of_heads h.toRep (fun id hr => ⟨0, hr, fun _ => by decide⟩) fun hr =>
      ⟨hr, ?_, fun _ => hshape.2⟩)
    rw [(h.linked 1).head_eq, hshape.1]
    rfl
  | Lru =>
    rw [hp] at hread
    refine hread (.of_heads h.toRep (fun id hr => ?_) fun hr => ?_)
    · rcases or_eq_some_iff.mp hr with hh | ⟨-, hh⟩
      · exact ⟨0, hh, fun _ => by decide⟩
      · exact ⟨1, hh, fun _ => by decide⟩
    · rw [or_eq_none_iff] at hr
      exact ⟨hr.1, hr.2, fun hl => by cases hl⟩
  | Sieve =>
    obtain ⟨r, st1, nodes1, h1, ht1, hfound⟩ := h.sweep hp (Nat.lt_succ_self _)
    exact ⟨r, st1, nodes1, q, h1, ht1, fun _ => .rfl, hfound, fun hl => by cases hl⟩
  | S3Fifo =>
    obtain ⟨r, st1, nodes1, q1, h1, ht1, hq1, hfound⟩ := h.second hp (Nat.lt_succ_self _)
    exact ⟨r, st1, nodes1, q1, h1, ht1, hq1, hfound, fun hl => by cases hl⟩
  | Lfu c =>
    rw [hp] at hread
    simp only
    split
    · rename_i candidate hc
      have hc0 : (st.lists 0).head = some candidate := by
        split at hc
        · exact hc
        · cases hc
      cases hv : (st.lists 1).head with
      | none =>
        refine hread
          (.of_heads h.toRep (fun id hr => ⟨0, hc0.trans hr, fun _ => by decide⟩) fun hr => ?_)
        cases hr
      | some =>
        obtain ⟨r, st1, nodes1, q1, h1, ht1, hq1, hfound⟩ :=
          h.contest hp (h.head_queued hc0) (h.head_queued hv)
        exact ⟨r, st1, nodes1, q1, h1, ht1, hq1, hfound, fun hl => by cases hl⟩
    · refine hread (.of_heads h.toRep (fun id hr => ?_) fun hr => ?_)
      · rcases or_eq_some_iff.mp hr with hh | ⟨-, hh⟩
        · rcases or_eq_some_iff.mp hh with hh | ⟨-, hh⟩
          · exact ⟨1, hh, fun hl => by cases hl⟩
          · exact ⟨2, hh, fun hl => by cases hl⟩
        · exact ⟨0, hh, fun hl => by cases hl⟩
      · rw [or_eq_none_iff, or_eq_none_iff] at hr
        exact ⟨hr.2, hr.1.1, fun _ => h.empty hr.1.2⟩

/-! ## New limits -/

/-- A new capacity trims the ghosts and demotes what no longer fits its share. -/
theorem Sound.resize (capacity : Nat) :
    ∃ st' nodes' q', st.resize nodes capacity = some (st', nodes') ∧
      Turn { st with capacity := capacity } nodes st' nodes' q' ∧
      (∀ x, Queued q' x ↔ Queued q x) ∧ (st.policy.pins = true → q' 2 = q 2) := by
  have hkept : Ghost.Kept { st.ghost with capacity := capacity } :=
    ⟨h.ghost.weighed, h.ghost.counted⟩
  obtain ⟨ghost, hghost, hgood, -⟩ := hkept.trim
  have hr0 : Rep { st with capacity := capacity, ghost := ghost } nodes q :=
    ⟨h.linked, h.queued, h.weighed, h.hand⟩
  have hshape := h.shape
  unfold State.resize
  simp only [hghost, bind_some]
  -- all but the shape is kept for any policy
  have hturn : ∀ {st' : State} {nodes' : Nodes K V P} {q' : Fin 3 → List Nat},
      Beside { st with capacity := capacity, ghost := ghost } st' → Rep st' nodes' q' →
      Same nodes nodes' → Shape st' q' →
        Turn { st with capacity := capacity } nodes st' nodes' q' :=
    fun {st' nodes' q'} hb hr hs hsh => ⟨⟨hr, hb.ghost ▸ hgood, by rw [hb.sketch]; exact h.sketch,
      by rw [hb.sketch, hb.policy]; exact h.sketched, hsh⟩, hb.policy, hb.capacity, hs.record⟩
  have hstay : Shape { st with capacity := capacity, ghost := ghost } q → st.policy.pins = false →
      ∃ st' nodes' q', some (({ st with capacity := capacity, ghost := ghost } : State), nodes) =
        some (st', nodes') ∧ Turn { st with capacity := capacity } nodes st' nodes' q' ∧
        (∀ x, Queued q' x ↔ Queued q x) ∧ (st.policy.pins = true → q' 2 = q 2) := fun hsh hp =>
    ⟨_, nodes, q, rfl, hturn .refl hr0 .refl hsh, fun _ => .rfl, fun _ => rfl⟩
  cases hp : st.policy with
  | Fifo | Sieve | S3Fifo =>
    simp only [hp] at hstay ⊢
    exact hstay (by simpa [Shape, hp] using hshape) rfl
  | Lru c =>
    obtain ⟨st1, nodes1, q1, h1, hr1, hs1, hb1, hsh1, hw1⟩ :=
      hr0.demote 1 0 (by decide) (portion capacity c.high_priority_percent)
    simp only [hp] at h1 hturn ⊢
    refine ⟨st1, nodes1, q1, h1, hturn (by simpa [hp] using hb1) hr1 hs1 ?_, hsh1.queued,
      fun _ => hsh1.others 2 (by decide) (by decide)⟩
    unfold Shape
    rw [hb1.policy, hb1.capacity]
    simp only [hp]
    exact hw1
  | Lfu c =>
    obtain ⟨st1, nodes1, q1, h1, hr1, hs1, hb1, hsh1, hw1⟩ :=
      hr0.demote 2 1 (by decide) (portion capacity c.protected_percent)
    simp only [hp] at h1 hturn ⊢
    refine ⟨st1, nodes1, q1, h1, hturn (by simpa [hp] using hb1) hr1 hs1 ?_, hsh1.queued,
      fun hl => by cases hl⟩
    unfold Shape
    rw [hb1.policy, hb1.capacity]
    simp only [hp]
    exact hw1

theorem Sound.clear_history : Sound st.clear_history nodes q where
  linked := h.linked
  queued := h.queued
  weighed := h.weighed
  hand := fun id hid => by cases hid
  ghost := ⟨⟨rfl, fun _ => rfl⟩, Nat.zero_le _, Nat.zero_le _⟩
  sketch := by
    intro s hs
    obtain ⟨s', hs', rfl⟩ := map_eq_some_iff.mp hs
    exact (h.sketch s' hs').clear
  sketched := fun c hc => by
    show (st.sketch.map Sketch.clear).isSome = true
    rw [isSome_map]
    exact h.sketched c hc
  shape := h.shape

end moat_cache_memory
