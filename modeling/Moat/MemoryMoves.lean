-- What each policy operation does to the three sequences: no operation panics or
-- runs out of rounds, the lists stay well formed, and LRU alone moves pins.
import Moat.MemoryQueues

namespace moat_cache_memory

open checked slab links List Function Option

variable {K V P : Type}

/-! ## Sound states -/

/-- The lists a policy leaves empty, and the share of the capacity a protected list may take. -/
def Shape (st : State) (q : Fin 3 → List Nat) : Prop :=
  match st.policy with
  | .Fifo | .Sieve => q 1 = [] ∧ q 2 = []
  | .S3Fifo _ => q 2 = []
  | .Lru c => (st.lists 1).weight ≤ portion st.capacity c.high_priority_percent
  | .Lfu c => (st.lists 2).weight ≤ portion st.capacity c.protected_percent

/-- The lists spell `q` and have the policy's shape, and the policy's history is in order. -/
structure Sound (st : State) (nodes : Nodes K V P) (q : Fin 3 → List Nat) : Prop
    extends Rep st nodes q where
  ghost : st.ghost.Good
  sketch : ∀ s, st.sketch = some s → s.Good
  sketched : ∀ c, st.policy = .Lfu c → st.sketch.isSome = true
  shape : Shape st q

/-- The node is in one of the sequences. -/
def Queued (q : Fin 3 → List Nat) (id : Nat) : Prop := ∃ i, id ∈ q i

theorem queued_iff {q : Fin 3 → List Nat} {id : Nat} :
    Queued q id ↔ id ∈ q 0 ∨ id ∈ q 1 ∨ id ∈ q 2 := by
  constructor
  · rintro ⟨i, hi⟩
    fin_cases i
    · exact .inl hi
    · exact .inr (.inl hi)
    · exact .inr (.inr hi)
  · rintro (h | h | h)
    · exact ⟨0, h⟩
    · exact ⟨1, h⟩
    · exact ⟨2, h⟩

/-- What an operation of a policy keeps. -/
structure Turn (st : State) (nodes : Nodes K V P) (st' : State) (nodes' : Nodes K V P)
    (q' : Fin 3 → List Nat) : Prop where
  sound : Sound st' nodes' q'
  policy : st'.policy = st.policy
  capacity : st'.capacity = st.capacity
  record : ∀ id, (nodes'.get id).map Node.record = (nodes.get id).map Node.record

section

variable {st st' : State} {nodes nodes' : Nodes K V P} {q q' : Fin 3 → List Nat} {id : Nat}
  {n : Node K V P}

variable {i j src dst : Fin 3} {x : Nat}

theorem mem_put : x ∈ put q i id j ↔ x ∈ q j ∨ (j = i ∧ x = id) := by
  by_cases h : j = i
  · subst h
    simp [put]
  · simp [put, h]

theorem Rep.mem_take (h : Rep st nodes q) : x ∈ take q id j ↔ x ∈ q j ∧ x ≠ id := by
  rw [take, (h.linked j).nodup.mem_erase_iff]
  exact and_comm

/-- After a move, the node is in its new list and every other node where it was. -/
theorem Rep.mem_move (h : Rep st nodes q) :
    x ∈ put (take q id) i id j ↔ if x = id then j = i else x ∈ q j := by
  rw [mem_put, h.mem_take]
  by_cases hx : x = id <;> simp [hx]

theorem Rep.queued_move (h : Rep st nodes q) (hid : Queued q id) (i : Fin 3) (x : Nat) :
    Queued (put (take q id) i id) x ↔ Queued q x := by
  unfold Queued
  simp only [h.mem_move]
  by_cases hx : x = id
  · simp only [if_pos hx, exists_eq, true_iff]
    rw [hx]
    exact hid
  · simp only [if_neg hx]

/-- A list that lost nodes is no heavier. -/
theorem Rep.weight_le_of_sublist (h : Rep st nodes q) (h' : Rep st' nodes' q')
    (hs : Same nodes nodes') (hq : (q' i).Sublist (q i)) :
    (st'.lists i).weight ≤ (st.lists i).weight := by
  rw [h.weighed, h'.weighed, hs.weightOf]
  exact (hq.map _).sum_le_sum fun _ _ => Nat.zero_le _

/-- The state of a policy keeps its soundness through list operations that keep its shape. -/
theorem Sound.beside (h : Sound st nodes q) (hb : Beside st st') (hr : Rep st' nodes' q')
    (hs : Shape st' q') : Sound st' nodes' q' where
  toRep := hr
  ghost := hb.ghost ▸ h.ghost
  sketch := by rw [hb.sketch]; exact h.sketch
  sketched := by rw [hb.sketch, hb.policy]; exact h.sketched
  shape := hs

theorem Sound.turn (h : Sound st nodes q) (hb : Beside st st') (hr : Rep st' nodes' q')
    (hs : Same nodes nodes') (hshape : Shape st' q') : Turn st nodes st' nodes' q' :=
  ⟨h.beside hb hr hshape, hb.policy, hb.capacity, hs.record⟩

/-- The lists whose contents the shape of a policy speaks of. -/
def guarded : Policy → Fin 3 → Bool
  | .Fifo, i | .Sieve, i => i != 0
  | .Lru _, i => i == 1
  | .S3Fifo _, i | .Lfu _, i => i == 2

/-- The shape stays while no guarded list gains a node. -/
theorem Sound.shape_of_sublist (h : Sound st nodes q) (h' : Rep st' nodes' q')
    (hs : Same nodes nodes') (hb : Beside st st')
    (hg : ∀ i, guarded st.policy i = true → (q' i).Sublist (q i)) : Shape st' q' := by
  have hshape := h.shape
  have hnil : ∀ i, guarded st.policy i = true → q i = [] → q' i = [] := fun i hi he =>
    sublist_nil.mp (he ▸ hg i hi)
  have hle : ∀ i, guarded st.policy i = true → (st'.lists i).weight ≤ (st.lists i).weight :=
    fun i hi => h.weight_le_of_sublist h' hs (hg i hi)
  unfold Shape at hshape ⊢
  rw [hb.policy, hb.capacity]
  cases hp : st.policy with
  | Fifo | Sieve =>
    simp only [hp, guarded] at hshape hnil ⊢
    exact ⟨hnil 1 rfl hshape.1, hnil 2 rfl hshape.2⟩
  | S3Fifo =>
    simp only [hp, guarded] at hshape hnil ⊢
    exact hnil 2 rfl hshape
  | Lru =>
    simp only [hp, guarded] at hshape hle ⊢
    exact (hle 1 rfl).trans hshape
  | Lfu =>
    simp only [hp, guarded] at hshape hle ⊢
    exact (hle 2 rfl).trans hshape

/-- A removal keeps a sound state sound. -/
theorem Sound.remove (h : Sound st nodes q) (hn : nodes.get id = some n) :
    ∃ st' nodes', st.remove nodes id = some (st', nodes') ∧ Turn st nodes st' nodes' (take q id) ∧
      Same nodes nodes' := by
  obtain ⟨st1, nodes1, h1, hr1, hs1, hb1, -⟩ := h.toRep.remove hn
  exact ⟨st1, nodes1, h1, h.turn hb1 hr1 hs1
    (h.shape_of_sublist hr1 hs1 hb1 fun i _ => erase_sublist), hs1⟩

/-- A move to a list that is not guarded keeps a sound state sound. -/
theorem Sound.move_to (h : Sound st nodes q) (hn : nodes.get id = some n)
    (hi : guarded st.policy i = false) :
    ∃ st' nodes', st.move_to nodes id i = some (st', nodes') ∧
      Turn st nodes st' nodes' (put (take q id) i id) ∧ Same nodes nodes' ∧ Beside st st' := by
  obtain ⟨st1, nodes1, h1, hr1, hs1, hb1⟩ := h.toRep.move_to hn i
  refine ⟨st1, nodes1, h1, h.turn hb1 hr1 hs1 (h.shape_of_sublist hr1 hs1 hb1 fun j hj => ?_), hs1,
    hb1⟩
  have hne : j ≠ i := by
    rintro rfl
    rw [hi] at hj
    cases hj
  rw [put, update_of_ne hne]
  exact erase_sublist

/-! ## Loops that move heads -/

/-- Nodes went from one list to another. -/
structure Shift (src dst : Fin 3) (q q' : Fin 3 → List Nat) : Prop where
  others : ∀ i, i ≠ src → i ≠ dst → q' i = q i
  both : ∀ id, (id ∈ q' src ∨ id ∈ q' dst) ↔ (id ∈ q src ∨ id ∈ q dst)

theorem Shift.refl : Shift src dst q q := ⟨fun _ _ _ => rfl, fun _ => .rfl⟩

theorem Shift.queued (h : Shift src dst q q') (x : Nat) : Queued q' x ↔ Queued q x := by
  have hsplit : ∀ p : Fin 3 → List Nat,
      Queued p x ↔ (x ∈ p src ∨ x ∈ p dst) ∨ ∃ i, i ≠ src ∧ i ≠ dst ∧ x ∈ p i := by
    intro p
    constructor
    · rintro ⟨i, hi⟩
      by_cases h1 : i = src
      · exact .inl (.inl (h1 ▸ hi))
      · by_cases h2 : i = dst
        · exact .inl (.inr (h2 ▸ hi))
        · exact .inr ⟨i, h1, h2, hi⟩
    · rintro ((hi | hi) | ⟨i, -, -, hi⟩) <;> exact ⟨_, hi⟩
  rw [hsplit, hsplit, h.both]
  refine or_congr Iff.rfl (exists_congr fun i => and_congr_right fun h1 => and_congr_right fun h2 =>
    ?_)
  rw [h.others i h1 h2]

/-- A loop that moves heads ends: no later than when its list is empty. -/
theorem Rep.moveWhile (go : State → Bool) (hne : src ≠ dst) {fuel : Nat}
    (h : Rep st nodes q) (hf : (q src).length < fuel) :
    ∃ st' nodes' q', State.moveWhile go src dst fuel st nodes = some (st', nodes') ∧
      Rep st' nodes' q' ∧ Same nodes nodes' ∧ Beside st st' ∧ Shift src dst q q' ∧
      (go st' = false ∨ q' src = []) := by
  induction fuel generalizing st nodes q with
  | zero => omega
  | succ _ ih =>
    unfold State.moveWhile
    by_cases hgo : go st = true
    · rw [if_pos hgo]
      cases hq : q src with
      | nil =>
        have hhead : (st.lists src).head = none := by rw [(h.linked src).head_eq, hq]; rfl
        rw [hhead]
        exact ⟨st, nodes, q, rfl, h, .refl, .refl, .refl, .inr hq⟩
      | cons id rest =>
        have hhead : (st.lists src).head = some id := by rw [(h.linked src).head_eq, hq]; rfl
        have hid : id ∈ q src := by rw [hq]; exact mem_cons_self
        obtain ⟨n, hn, -⟩ := h.get hid
        obtain ⟨st1, nodes1, h1, hr1, hs1, hb1⟩ := h.move_to hn dst
        have hsrc : put (take q id) dst id src = rest := by
          rw [put, update_of_ne hne, take, hq, erase_cons_head]
        obtain ⟨st2, nodes2, q2, h2, hr2, hs2, hb2, hsh2, hgo2⟩ := ih hr1 (by
          rw [hsrc]
          rw [hq, length_cons] at hf
          omega)
        refine ⟨st2, nodes2, q2, ?_, hr2, hs1.trans hs2, hb1.trans hb2, ⟨?_, ?_⟩, hgo2⟩
        · rw [hhead]
          simp only [h1, bind_some]
          exact h2
        · intro i h1 h2
          rw [hsh2.others i h1 h2, put, update_of_ne h2, take]
          exact erase_of_not_mem fun hm => h1 (h.unique hm hid)
        · intro x
          rw [hsh2.both, h.mem_move, h.mem_move]
          by_cases hx : x = id
          · simp [hx, hid]
          · simp [hx]
    · rw [if_neg hgo]
      exact ⟨st, nodes, q, rfl, h, .refl, .refl, .refl, .inl (by simpa using hgo)⟩

/-- A demotion brings the list within its limit. -/
theorem Rep.demote (h : Rep st nodes q) (src dst : Fin 3) (hne : src ≠ dst) (limit : Nat) :
    ∃ st' nodes' q', st.demote nodes src dst limit = some (st', nodes') ∧ Rep st' nodes' q' ∧
      Same nodes nodes' ∧ Beside st st' ∧ Shift src dst q q' ∧ (st'.lists src).weight ≤ limit := by
  obtain ⟨st1, nodes1, q1, h1, hr1, hs1, hb1, hsh1, hend⟩ :=
    h.moveWhile (fun st => limit < (st.lists src).weight) hne (Nat.lt_succ_of_le (h.length_le src))
  refine ⟨st1, nodes1, q1, h1, hr1, hs1, hb1, hsh1, ?_⟩
  rcases hend with hend | hend
  · simpa using hend
  · rw [hr1.weighed, hend]
    exact Nat.zero_le _

/-! ## Hits and releases -/

section
variable (h : Sound st nodes q)
include h

theorem Sound.with_sketch {s : Sketch} (hs : s.Good) :
    Sound { st with sketch := some s } nodes q where
  linked := h.linked
  queued := h.queued
  weighed := h.weighed
  hand := h.hand
  ghost := h.ghost
  sketch := by rintro s' ⟨⟩; exact hs
  sketched := fun _ _ => rfl
  shape := h.shape

/-- A hit keeps the state sound; LRU pins the node that is hit and no other. -/
theorem Sound.access (hid : Queued q id) (hm : st.policy.mutable_hits = true) :
    ∃ st' nodes' q', st.access nodes id = some (st', nodes') ∧ Turn st nodes st' nodes' q' ∧
      (∀ x, Queued q' x ↔ Queued q x) ∧
      (st.policy.pins = true → ∀ x, x ∈ q' 2 ↔ x = id ∨ x ∈ q 2) := by
  obtain ⟨i, hi⟩ := hid
  obtain ⟨n, hn, hqi⟩ := h.get hi
  unfold State.access
  rw [hn, bind_some]
  cases hp : st.policy with
  | Fifo | Sieve | S3Fifo => rw [hp] at hm; cases hm
  | Lru =>
    simp only
    by_cases h2 : n.queue = some 2
    · rw [if_pos h2]
      have hin : id ∈ q 2 := (h.queued 2 id).mpr ⟨n, hn, h2⟩
      refine ⟨st, nodes, q, rfl, ⟨h, rfl, rfl, fun _ => rfl⟩, fun _ => .rfl, fun _ x => ?_⟩
      constructor
      · exact .inr
      · rintro (rfl | hx)
        · exact hin
        · exact hx
    · rw [if_neg h2]
      obtain ⟨st1, nodes1, h1, ht1, -, -⟩ := h.move_to hn (i := 2) (by rw [hp]; rfl)
      refine ⟨st1, nodes1, _, h1, ht1, h.queued_move ⟨i, hi⟩ 2, fun _ x => ?_⟩
      rw [h.mem_move]
      by_cases hx : x = id <;> simp [hx]
  | Lfu c =>
    simp only
    obtain ⟨s, hs⟩ := isSome_iff_exists.mp (h.sketched c hp)
    obtain ⟨s', hs', hg', -⟩ := (h.sketch s hs).record n.record.hash
    rw [hs, bind_some, hs', bind_some]
    have h0 := h.with_sketch hg'
    obtain ⟨st1, nodes1, h1, hr1, hs1, hb1⟩ :=
      h0.toRep.move_to hn (if n.queue = some 0 then 0 else 2)
    obtain ⟨st2, nodes2, q2, h2, hr2, hs2, hb2, hsh2, hw2⟩ :=
      hr1.demote 2 1 (by decide) (portion st1.capacity c.protected_percent)
    have hb := hb1.trans hb2
    refine ⟨st2, nodes2, q2, ?_, ⟨h0.beside hb hr2 ?_, hb.policy, hb.capacity,
      (hs1.trans hs2).record⟩, fun x => ?_, fun hl => by cases hl⟩
    · rw [hp] at h1
      rw [h1, bind_some]
      exact h2
    · unfold Shape
      rw [hb.policy, hb2.capacity]
      simp only [hp]
      exact hw2
    · rw [hsh2.queued, h.queued_move ⟨i, hi⟩]

/-- A release keeps the state sound; LRU unpins the node that is released and no other. -/
theorem Sound.release (hid : Queued q id) :
    ∃ st' nodes' q', st.release nodes id = some (st', nodes') ∧ Turn st nodes st' nodes' q' ∧
      (∀ x, Queued q' x ↔ Queued q x) ∧
      (st.policy.pins = true → ∀ x, x ∈ q' 2 ↔ x ≠ id ∧ x ∈ q 2) := by
  have hstay : ∀ p : Policy, p.pins = false → ∃ st' nodes' q',
      some (st, nodes) = some (st', nodes') ∧ Turn st nodes st' nodes' q' ∧
      (∀ x, Queued q' x ↔ Queued q x) ∧ (p.pins = true → ∀ x, x ∈ q' 2 ↔ x ≠ id ∧ x ∈ q 2) :=
    fun p hp => ⟨st, nodes, q, rfl, ⟨h, rfl, rfl, fun _ => rfl⟩, fun _ => .rfl, fun hl => by
      rw [hp] at hl
      cases hl⟩
  unfold State.release
  cases hp : st.policy with
  | Fifo | Sieve | S3Fifo | Lfu => exact hstay _ rfl
  | Lru c =>
    obtain ⟨i, hi⟩ := hid
    obtain ⟨n, hn, hqi⟩ := h.get hi
    simp only [hn, bind_some]
    by_cases h2 : n.queue = some 2
    · rw [if_pos h2]
      obtain ⟨st1, nodes1, h1, hr1, hs1, hb1⟩ :=
        h.toRep.move_to hn (if n.record.priority = .High then 1 else 0)
      obtain ⟨st2, nodes2, q2, h2, hr2, hs2, hb2, hsh2, hw2⟩ :=
        hr1.demote 1 0 (by decide) (portion st1.capacity c.high_priority_percent)
      have hb := hb1.trans hb2
      refine ⟨st2, nodes2, q2, ?_, h.turn hb hr2 (hs1.trans hs2) ?_, fun x => ?_, fun _ x => ?_⟩
      · rw [h1, bind_some]
        exact h2
      · unfold Shape
        rw [hb.policy, hb2.capacity, hp]
        exact hw2
      · rw [hsh2.queued, h.queued_move ⟨i, hi⟩]
      · rw [hsh2.others 2 (by decide) (by decide), h.mem_move]
        by_cases hx : x = id
        · simp only [hx, if_true, ne_eq, not_true, false_and, iff_false]
          split <;> decide
        · simp [hx]
    · rw [if_neg h2]
      refine ⟨st, nodes, q, rfl, ⟨h, rfl, rfl, fun _ => rfl⟩, fun _ => .rfl, fun _ x => ?_⟩
      refine ⟨fun hx => ⟨?_, hx⟩, fun hx => hx.2⟩
      rintro rfl
      obtain ⟨n', hn', hq'⟩ := h.get hx
      rw [hn] at hn'
      cases hn'
      exact h2 hq'

/-! ## Insertion -/

theorem Sound.sighted (hash : UInt64) :
    ∃ st', st.sighted hash = some st' ∧ Sound st' nodes q ∧ st'.policy = st.policy ∧
      st'.capacity = st.capacity := by
  unfold State.sighted
  cases hs : st.sketch with
  | none => exact ⟨st, rfl, h, rfl, rfl⟩
  | some s =>
    obtain ⟨s', hs', hg', -⟩ := (h.sketch s hs).record hash
    simp only [hs', map_some]
    exact ⟨_, rfl, h.with_sketch hg', rfl, rfl⟩

/-- The warm-up keeps the state sound and the pins where they are. -/
theorem Sound.warm :
    ∃ st' nodes' q', st.warm nodes = some (st', nodes') ∧ Turn st nodes st' nodes' q' ∧
      (∀ x, Queued q' x ↔ Queued q x) ∧ q' 2 = q 2 := by
  have hstay : ∃ st' nodes' q', some (st, nodes) = some (st', nodes') ∧
    Turn st nodes st' nodes' q' ∧
      (∀ x, Queued q' x ↔ Queued q x) ∧ q' 2 = q 2 :=
    ⟨st, nodes, q, rfl, ⟨h, rfl, rfl, fun _ => rfl⟩, fun _ => .rfl, rfl⟩
  unfold State.warm
  cases hp : st.policy with
  | Fifo | Sieve | S3Fifo | Lru => exact hstay
  | Lfu c =>
    obtain ⟨st1, nodes1, q1, h1, hr1, hs1, hb1, hsh1, -⟩ := h.toRep.moveWhile
      (fun st => st.total_weight ≤ st.capacity &&
        portion st.capacity c.window_percent < (st.lists 0).weight)
      (show (0 : Fin 3) ≠ 1 by decide) (Nat.lt_succ_of_le (h.length_le 0))
    have h2 := hsh1.others 2 (by decide) (by decide)
    refine ⟨st1, nodes1, q1, h1, h.turn hb1 hr1 hs1 ?_, hsh1.queued, h2⟩
    refine h.shape_of_sublist hr1 hs1 hb1 fun i hi => ?_
    rw [hp] at hi
    rw [show i = 2 by simpa [guarded] using hi, h2]

end

theorem guarded_entrance (st : State) (hash : UInt64) :
    guarded st.policy (st.entrance hash) = false := by
  unfold State.entrance
  cases st.policy with
  | Fifo | Sieve | Lru | Lfu => rfl
  | S3Fifo =>
    simp only
    split <;> rfl

/-- An insertion links the new node and no other; LRU pins it. -/
theorem Sound.insert (h : Sound st nodes q) (hn : nodes.get id = some n) (hq : n.queue = none) :
    ∃ st' nodes' q', st.insert nodes id = some (st', nodes') ∧ Turn st nodes st' nodes' q' ∧
      (∀ x, Queued q' x ↔ x = id ∨ Queued q x) ∧
      (st.policy.pins = true → ∀ x, x ∈ q' 2 ↔ x = id ∨ x ∈ q 2) := by
  obtain ⟨st0, h0, hsd0, hp0, hc0⟩ := h.sighted n.record.hash
  obtain ⟨st1, nodes1, h1, hr1, hs1, hb1, -⟩ :=
    hsd0.toRep.push hn hq (st.entrance n.record.hash)
  have hsd1 : Sound st1 nodes1 (put q (st.entrance n.record.hash) id) := by
    refine hsd0.beside hb1 hr1 (hsd0.shape_of_sublist hr1 hs1 hb1 fun i hi => ?_)
    have hne : i ≠ st.entrance n.record.hash := by
      rintro rfl
      rw [hp0, guarded_entrance] at hi
      cases hi
    rw [put, update_of_ne hne]
  obtain ⟨st2, nodes2, q2, h2, ht2, hq2, hpin2⟩ := hsd1.warm
  refine ⟨st2, nodes2, q2, ?_, ⟨ht2.sound, ?_, ?_, ?_⟩, fun x => ?_, fun hpin x => ?_⟩
  · simp only [State.insert, hn, h0, bind_some, h1, h2]
  · exact ht2.policy.trans (hb1.policy.trans hp0)
  · exact ht2.capacity.trans (hb1.capacity.trans hc0)
  · exact fun j => (ht2.record j).trans (hs1.record j)
  · rw [hq2]
    unfold Queued
    simp only [mem_put, exists_or, exists_eq_left, or_comm]
  · have he : st.entrance n.record.hash = 2 := by
      unfold State.entrance
      cases hp : st.policy with
      | Lru => rfl
      | Fifo | Sieve | Lfu | S3Fifo => rw [hp] at hpin; cases hpin
    rw [hpin2, mem_put, he]
    simp only [true_and, or_comm]

end

end moat_cache_memory
