-- The three lists of a policy as plain sequences: the links of the nodes spell
-- them, and each list operation of the source is one operation on sequences.
import Moat.MemoryPolicy

namespace moat_cache_memory

open checked slab links List Function Option

variable {K V P : Type} {id : Nat}

/-! ## What list operations leave alone -/

/-- The same records, as often seen, under the same numbers. -/
structure Same (nodes nodes' : Nodes K V P) : Prop where
  length : nodes'.entries.length = nodes.entries.length
  core : ∀ id, (nodes'.get id).map (fun n => (n.record, n.frequency)) =
    (nodes.get id).map (fun n => (n.record, n.frequency))

namespace Same

variable {nodes nodes' nodes'' : Nodes K V P}

theorem refl : Same nodes nodes := ⟨rfl, fun _ => rfl⟩

variable (h : Same nodes nodes')
include h

theorem trans (h' : Same nodes' nodes'') : Same nodes nodes'' :=
  ⟨h'.length.trans h.length, fun id => (h'.core id).trans (h.core id)⟩

theorem get {n : Node K V P} (hn : nodes.get id = some n) :
    ∃ n', nodes'.get id = some n' ∧ n'.record = n.record ∧ n'.frequency = n.frequency := by
  have hc := h.core id
  rw [hn, map_some, map_eq_some_iff] at hc
  obtain ⟨n', hn', he⟩ := hc
  obtain ⟨h1, h2⟩ := Prod.ext_iff.mp he
  exact ⟨n', hn', h1, h2⟩

theorem record (id : Nat) : (nodes'.get id).map Node.record = (nodes.get id).map Node.record := by
  have hc := congrArg (Option.map Prod.fst) (h.core id)
  rwa [Option.map_map, Option.map_map] at hc

theorem get_none (hn : nodes.get id = none) : nodes'.get id = none := by
  have hr := h.record id
  rwa [hn, map_none, map_eq_none_iff] at hr

theorem heat : State.heat nodes' = State.heat nodes := by
  refine Slab.total_congr h.length fun id => ?_
  cases hn : nodes.get id with
  | none => rw [h.get_none hn]
  | some =>
    obtain ⟨n', hn', -, hf⟩ := h.get hn
    rw [hn']
    exact hf

end Same

/-- The parts of a policy's state that the list operations do not touch. -/
structure Beside (st st' : State) : Prop where
  policy : st'.policy = st.policy
  capacity : st'.capacity = st.capacity
  ghost : st'.ghost = st.ghost
  sketch : st'.sketch = st.sketch

theorem Beside.refl {st : State} : Beside st st := ⟨rfl, rfl, rfl, rfl⟩

theorem Beside.trans {st st' st'' : State} (h : Beside st st') (h' : Beside st' st'') :
    Beside st st'' :=
  ⟨h'.policy.trans h.policy, h'.capacity.trans h.capacity, h'.ghost.trans h.ghost,
    h'.sketch.trans h.sketch⟩

/-! ## Links -/

def linkOf (nodes : Nodes K V P) (id : Nat) : Option Link :=
  (nodes.get id).map fun n => ⟨n.prev, n.next⟩

def weightOf (nodes : Nodes K V P) (id : Nat) :
    Nat := (nodes.get id).elim 0 fun n => n.record.weight

theorem weightOf_some {nodes : Nodes K V P} {n : Node K V P} (h : nodes.get id = some n) :
    weightOf nodes id = n.record.weight := by rw [weightOf, h]; rfl

/-- The weight of a node is in its record. -/
theorem weightOf_congr {nodes nodes' : Nodes K V P}
    (h : (nodes'.get id).map Node.record = (nodes.get id).map Node.record) :
    weightOf nodes' id = weightOf nodes id := by
  have helim : ∀ o : Option (Node K V P),
      o.elim 0 (fun n => n.record.weight) = (o.map Node.record).elim 0 Record.weight := by
    intro o
    cases o <;> rfl
  rw [weightOf, weightOf, helim, helim, h]

theorem Same.weightOf {nodes nodes' : Nodes K V P} (h : Same nodes nodes') :
    weightOf nodes' = weightOf nodes := funext fun id => weightOf_congr (h.record id)

theorem Same.modify (nodes : Nodes K V P) (id : Nat) {f : Node K V P → Node K V P}
    (hf : ∀ n, (f n).record = n.record ∧ (f n).frequency = n.frequency) :
    Same nodes (nodes.modify id f) := by
  refine ⟨length_modify .., fun j => ?_⟩
  rw [Slab.get_modify]
  split
  · rw [Option.map_map]
    congr 1
    funext n
    exact Prod.ext (hf n).1 (hf n).2
  · rfl

theorem Nodes.touch_spec {nodes : Nodes K V P} {id : Option Nat} {f : Node K V P → Node K V P}
    (hf : ∀ n, (f n).record = n.record ∧ (f n).frequency = n.frequency)
    (h : ∀ p, id = some p → (nodes.get p).isSome = true) :
    ∃ nodes', nodes.touch id f = some nodes' ∧ Same nodes nodes' ∧
      ∀ j, nodes'.get j = if id = some j then (nodes.get j).map f else nodes.get j := by
  cases id with
  | none => exact ⟨nodes, rfl, .refl, fun j => rfl⟩
  | some p =>
    obtain ⟨n, hn⟩ := isSome_iff_exists.mp (h p rfl)
    refine ⟨nodes.modify p f, ?_, .modify nodes p hf, fun j => ?_⟩
    · rw [touch, hn, map_some]
    · rw [Slab.get_modify]
      simp only [some.injEq, eq_comm]

/-! ## The lists as sequences -/

/-- The node is taken out of whichever sequence it is in. -/
def take (q : Fin 3 → List Nat) (id : Nat) : Fin 3 → List Nat := fun i => (q i).erase id

/-- The node is put at the end of a sequence. -/
def put (q : Fin 3 → List Nat) (i : Fin 3) (id : Nat) : Fin 3 → List Nat :=
  update q i (q i ++ [id])

/-- The links of the nodes spell the sequences `q`: each list is well formed, holds exactly the
nodes that name it, and knows the weight of its nodes; the hand is at a node of the first. -/
structure Rep (st : State) (nodes : Nodes K V P) (q : Fin 3 → List Nat) : Prop where
  linked : ∀ i, Linked (linkOf nodes) (st.lists i).head (st.lists i).tail (q i)
  queued : ∀ i id, id ∈ q i ↔ ∃ n, nodes.get id = some n ∧ n.queue = some i
  weighed : ∀ i, (st.lists i).weight = ((q i).map (weightOf nodes)).sum
  hand : ∀ id, st.hand = some id → id ∈ q 0

namespace Rep

variable {st : State} {nodes : Nodes K V P} {q : Fin 3 → List Nat} {id : Nat} {n : Node K V P}

section

variable (h : Rep st nodes q)
include h

theorem get {i : Fin 3} (hid : id ∈ q i) :
    ∃ n, nodes.get id = some n ∧ n.queue = some i := (h.queued i id).mp hid

theorem isSome {i : Fin 3} (hid : id ∈ q i) : (nodes.get id).isSome = true := by
  obtain ⟨n, hn, -⟩ := h.get hid
  rw [hn]
  rfl

/-- A node is in one sequence only. -/
theorem unique {i j : Fin 3} (hi : id ∈ q i) (hj : id ∈ q j) : i = j := by
  obtain ⟨n, hn, hq⟩ := h.get hi
  obtain ⟨n', hn', hq'⟩ := h.get hj
  rw [hn] at hn'
  cases hn'
  exact some.inj (hq.symm.trans hq')

theorem not_mem (hn : nodes.get id = some n) (hq : n.queue = none) (i : Fin 3) : id ∉ q i := by
  intro hid
  obtain ⟨n', hn', hq'⟩ := h.get hid
  rw [hn] at hn'
  cases hn'
  rw [hq] at hq'
  cases hq'

theorem length_le (i : Fin 3) : (q i).length ≤ nodes.entries.length :=
  Slab.length_le (h.linked i).nodup fun _ hid => h.isSome hid

theorem weight_le {i : Fin 3} (hid : id ∈ q i) (hn : nodes.get id = some n) :
    n.record.weight ≤ (st.lists i).weight := by
  rw [h.weighed, ← weightOf_some hn]
  exact le_sum_of_mem (mem_map_of_mem hid)

/-- A push puts a node that is in no list at the end of one. -/
theorem push (hn : nodes.get id = some n) (hq : n.queue = none) (i : Fin 3) :
    ∃ st' nodes', st.push nodes id i = some (st', nodes') ∧ Rep st' nodes' (put q i id) ∧
      Same nodes nodes' ∧ Beside st st' ∧ st'.hand = st.hand := by
  have hout := h.not_mem hn hq
  have htail : ∀ t, (st.lists i).tail = some t → t ∈ q i := fun t ht =>
    mem_of_getLast? ((h.linked i).tail_eq.symm.trans ht)
  obtain ⟨nodes1, h1, hs1, hg1⟩ :
    ∃ nodes1, nodes.link_next (st.lists i).tail (some id) = some nodes1 ∧
      Same nodes nodes1 ∧ _ :=
    Nodes.touch_spec (fun _ => ⟨rfl, rfl⟩) (fun t ht => h.isSome (htail t ht))
  have hne : (st.lists i).tail ≠ some id := fun ht => hout i (htail id ht)
  have hid1 : nodes1.get id = some n := by rw [hg1, if_neg hne, hn]
  have hpush : st.push nodes id i = some (st.set i
        { head := if (st.lists i).tail = none then some id else (st.lists i).head
          tail := some id
          weight := (st.lists i).weight + n.record.weight },
      nodes1.modify id fun n =>
        { n with prev := (st.lists i).tail, next := none, queue := some i }) := by
    simp only [State.push, h1, bind_some, hid1, map_some]
  -- what each node looks like afterwards
  have hget : ∀ j, (nodes1.modify id fun n =>
      { n with prev := (st.lists i).tail, next := none, queue := some i }).get j =
      if j = id then some { n with prev := (st.lists i).tail, next := none, queue := some i }
      else if (st.lists i).tail = some j then (nodes.get j).map
        (fun n => { n with next := some id })
      else nodes.get j := by
    intro j
    rw [Slab.get_modify]
    by_cases hj : j = id
    · rw [if_pos hj, if_pos hj, hj, hid1]
      rfl
    · rw [if_neg hj, if_neg hj, hg1]
  have hsame : Same nodes (nodes1.modify id fun n =>
      { n with prev := (st.lists i).tail, next := none, queue := some i }) := by
    exact hs1.trans (.modify nodes1 id fun _ => ⟨rfl, rfl⟩)
  refine ⟨_, _, hpush, ⟨?_, ?_, ?_, ?_⟩, hsame, ⟨rfl, rfl, rfl, rfl⟩, rfl⟩
  · intro k
    by_cases hk : k = i
    · subst hk
      have hhead : (if (st.lists k).tail = none then some id else (st.lists k).head) =
          (st.lists k).head.or (some id) := by
        rw [(h.linked k).tail_eq, (h.linked k).head_eq]
        cases q k with
        | nil => rfl
        | cons => simp
      simp only [State.set, put, update_self]
      rw [hhead]
      refine (h.linked k).push (hout k) ?_ ?_ ?_
      · rw [linkOf, hget, if_pos rfl]
        rfl
      · intro t ht
        have hti : t ≠ id := fun he => hout k (he ▸ htail t ht)
        rw [linkOf, hget, if_neg hti, if_pos ht, linkOf, Option.map_map, Option.map_map]
        rfl
      · intro j hj hjt
        have hji : j ≠ id := fun he => hout k (he ▸ hj)
        rw [linkOf, hget, if_neg hji, if_neg hjt, linkOf]
    · simp only [State.set, put, update_of_ne hk]
      refine (h.linked k).congr fun j hj => ?_
      have hji : j ≠ id := fun he => hout k (he ▸ hj)
      have hjt : (st.lists i).tail ≠ some j := fun ht => hk (h.unique hj (htail j ht))
      rw [linkOf, hget, if_neg hji, if_neg hjt, linkOf]
  · intro k j
    rw [hget]
    by_cases hj : j = id
    · subst hj
      by_cases hk : k = i
      · subst hk
        simp [put]
      · simp [put, update_of_ne hk, hout k, Ne.symm hk]
    · have hmem : j ∈ put q i id k ↔ j ∈ q k := by
        by_cases hk : k = i
        · subst hk
          simp [put, hj]
        · rw [put, update_of_ne hk]
      rw [hmem, h.queued, if_neg hj]
      split
      · simp
      · rfl
  · intro k
    rw [hsame.weightOf]
    by_cases hk : k = i
    · subst hk
      simp [State.set, put, h.weighed, weightOf_some hn]
    · simp [State.set, put, update_of_ne hk, h.weighed]
  · intro j hj
    have hm := h.hand j hj
    by_cases hk : (0 : Fin 3) = i
    · subst hk
      simp [put, hm]
    · rwa [put, update_of_ne hk]

end

theorem take_of_not_mem (h : ∀ i, id ∉ q i) : take q id = q := by
  funext i
  exact erase_of_not_mem (h i)

/-- A removal takes a node out of its list, if it is in one. -/
theorem remove (h : Rep st nodes q) (hn : nodes.get id = some n) :
    ∃ st' nodes', st.remove nodes id = some (st', nodes') ∧ Rep st' nodes' (take q id) ∧
      Same nodes nodes' ∧ Beside st st' ∧ ∃ n', nodes'.get id = some n' ∧ n'.queue = none := by
  cases hq : n.queue with
  | none =>
    refine ⟨st, nodes, ?_, ?_, .refl, .refl, n, hn, hq⟩
    · simp only [State.remove, hn, bind_some, hq]
    · rwa [take_of_not_mem (h.not_mem hn hq)]
  | some i =>
    have hid : id ∈ q i := (h.queued i id).mpr ⟨n, hn, hq⟩
    obtain ⟨a, b, hab⟩ := append_of_mem hid
    have hl := h.linked i
    rw [hab] at hl
    have hlink : n.prev = a.getLast? ∧ n.next = b.head? := by
      have := hl.link_eq
      rw [linkOf, hn, map_some, some.injEq, Link.mk.injEq] at this
      exact this
    have hnd := hl.nodup
    obtain ⟨hna, hnb, hdis⟩ := nodup_append.mp hnd
    have hpm : ∀ p, n.prev = some p → p ∈ a := fun p hp =>
      mem_of_getLast? (hlink.1.symm.trans hp)
    have hnm : ∀ p, n.next = some p → p ∈ b := fun p hp =>
      mem_of_head? (hlink.2.symm.trans hp)
    have hain : ∀ p ∈ a, p ∈ q i := fun p hp => by rw [hab]; exact mem_append_left _ hp
    have hbin : ∀ p ∈ b, p ∈ q i := fun p hp => by
      rw [hab]; exact mem_append_right _ (mem_cons_of_mem _ hp)
    have hida : id ∉ a := fun hm => hdis id hm id mem_cons_self rfl
    have hidb : id ∉ b := (nodup_cons.mp hnb).1
    have hab' : ∀ p ∈ a, p ∉ b := fun p hp hp' => hdis p hp p (mem_cons_of_mem _ hp') rfl
    obtain ⟨nodes1, h1, hs1, hg1⟩ : ∃ nodes1, nodes.link_next n.prev n.next = some nodes1 ∧
        Same nodes nodes1 ∧ _ :=
      Nodes.touch_spec (fun _ => ⟨rfl, rfl⟩) (fun p hp => h.isSome (hain p (hpm p hp)))
    obtain ⟨nodes2, h2, hs2, hg2⟩ : ∃ nodes2, nodes1.link_prev n.next n.prev = some nodes2 ∧
        Same nodes1 nodes2 ∧ _ :=
      Nodes.touch_spec (fun _ => ⟨rfl, rfl⟩) (fun p hp => by
        obtain ⟨m, hm, -⟩ := h.get (hbin p (hnm p hp))
        obtain ⟨m', hm', -⟩ := hs1.get hm
        rw [hm']
        rfl)
    have hremove : st.remove nodes id = some (State.set { st with
          hand := if st.hand = some id then n.next else st.hand } i
          { head := if n.prev = none then n.next else (st.lists i).head
            tail := if n.next = none then n.prev else (st.lists i).tail
            weight := (st.lists i).weight - n.record.weight },
        nodes2.modify id fun n => { n with prev := none, next := none, queue := none }) := by
      simp only [State.remove, hn, bind_some, hq, h1, h2, sub?_eq (h.weight_le hid hn),
        map_some]
    -- what each node looks like afterwards
    have hget : ∀ j, (nodes2.modify id fun n =>
        { n with prev := none, next := none, queue := none }).get j =
        if j = id then some { n with prev := none, next := none, queue := none }
        else if n.next = some j then (nodes.get j).map (fun m => { m with prev := n.prev })
        else if n.prev = some j then (nodes.get j).map (fun m => { m with next := n.next })
        else nodes.get j := by
      intro j
      rw [Slab.get_modify, hg2, hg1]
      by_cases hj : j = id
      · have hjp : n.prev ≠ some j := fun hp => hida (hj ▸ hpm j hp)
        have hjn : n.next ≠ some j := fun hp => hidb (hj ▸ hnm j hp)
        rw [if_pos hj, if_pos hj, if_neg hjn, if_neg hjp, hj, hn]
        rfl
      · rw [if_neg hj, if_neg hj]
        by_cases hjn : n.next = some j
        · have hjp : n.prev ≠ some j := fun hp => hab' j (hpm j hp) (hnm j hjn)
          rw [if_pos hjn, if_pos hjn, if_neg hjp]
        · rw [if_neg hjn, if_neg hjn]
    have hsame : Same nodes (nodes2.modify id fun n =>
        { n with prev := none, next := none, queue := none }) :=
      (hs1.trans hs2).trans (.modify nodes2 id fun _ => ⟨rfl, rfl⟩)
    have herase : (q i).erase id = a ++ b := by
      rw [hab, erase_append_right _ hida, erase_cons_head]
    have hother : ∀ k, k ≠ i → (q k).erase id = q k := fun k hk =>
      erase_of_not_mem fun hm => hk (h.unique hm hid)
    refine ⟨_, _, hremove, ⟨?_, ?_, ?_, ?_⟩, hsame, ⟨rfl, rfl, rfl, rfl⟩,
      { n with prev := none, next := none, queue := none }, ?_, rfl⟩
    · intro k
      by_cases hk : k = i
      · subst hk
        simp only [State.set, take, update_self, herase]
        rw [hlink.1, hlink.2]
        refine hl.remove ?_ ?_ ?_
        · intro p hp
          rw [← hlink.1] at hp
          have hpi : p ≠ id := fun he => hida (he ▸ hpm p hp)
          have hpn : n.next ≠ some p := fun he => hab' p (hpm p hp) (hnm p he)
          rw [linkOf, hget, if_neg hpi, if_neg hpn, if_pos hp, linkOf, Option.map_map,
            Option.map_map, hlink.2]
          rfl
        · intro p hp
          rw [← hlink.2] at hp
          have hpi : p ≠ id := fun he => hidb (he ▸ hnm p hp)
          rw [linkOf, hget, if_neg hpi, if_pos hp, linkOf, Option.map_map, Option.map_map, hlink.1]
          rfl
        · intro p hp hpa hpb
          rw [← hlink.1] at hpa
          rw [← hlink.2] at hpb
          have hpi : p ≠ id := by
            rintro rfl
            rcases mem_append.mp hp with hm | hm
            · exact hida hm
            · exact hidb hm
          rw [linkOf, hget, if_neg hpi, if_neg hpb, if_neg hpa, linkOf]
      · simp only [State.set, take, update_of_ne hk, hother k hk]
        refine (h.linked k).congr fun j hj => ?_
        have hji : j ≠ id := fun he => hk (h.unique hj (he ▸ hid))
        have hjn : n.next ≠ some j := fun hp => hk (h.unique hj (hbin j (hnm j hp)))
        have hjp : n.prev ≠ some j := fun hp => hk (h.unique hj (hain j (hpm j hp)))
        rw [linkOf, hget, if_neg hji, if_neg hjn, if_neg hjp, linkOf]
    · intro k j
      rw [hget, take]
      by_cases hj : j = id
      · subst hj
        simp [(h.linked k).nodup.not_mem_erase]
      · rw [mem_erase_of_ne hj, h.queued, if_neg hj]
        split
        · simp
        · split
          · simp
          · rfl
    · intro k
      rw [hsame.weightOf]
      by_cases hk : k = i
      · subst hk
        have hsum := sum_map_erase (weightOf nodes) hid
        rw [weightOf_some hn] at hsum
        simp only [State.set, take, update_self, h.weighed]
        omega
      · simp only [State.set, take, update_of_ne hk, hother k hk, h.weighed]
    · intro j hj
      simp only [State.set] at hj
      split at hj
      · rename_i hh
        have hi0 : (0 : Fin 3) = i := h.unique (h.hand id hh) hid
        rw [take, hi0, herase]
        exact mem_append_right _ (hnm j hj)
      · rename_i hh
        have hji : j ≠ id := fun he => hh (he ▸ hj)
        exact (mem_erase_of_ne hji).mpr (h.hand j hj)
    · rw [hget, if_pos rfl]

/-- A move takes a node out of its list and puts it at the end of one. -/
theorem move_to (h : Rep st nodes q) (hn : nodes.get id = some n) (i : Fin 3) :
    ∃ st' nodes', st.move_to nodes id i = some (st', nodes') ∧
      Rep st' nodes' (put (take q id) i id) ∧
      Same nodes nodes' ∧ Beside st st' := by
  obtain ⟨st1, nodes1, h1, hr1, hs1, hb1, n1, hn1, hq1⟩ := h.remove hn
  obtain ⟨st2, nodes2, h2, hr2, hs2, hb2, -⟩ := hr1.push hn1 hq1 i
  refine ⟨st2, nodes2, ?_, hr2, hs1.trans hs2, hb1.trans hb2⟩
  rw [State.move_to, h1, bind_some]
  exact h2

end Rep

end moat_cache_memory
