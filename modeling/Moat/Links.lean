-- Doubly linked lists over numbered nodes: what the links of the nodes say when
-- they spell a given sequence, and how a push and a removal change them.
import Mathlib

namespace links

open List

/-- The neighbours of one node. -/
structure Link where
  prev : Option Nat
  next : Option Nat
  deriving DecidableEq

/-- The links of the nodes, and both ends, spell the sequence `ids`. -/
structure Linked (link : Nat → Option Link) (head tail : Option Nat) (ids : List Nat) : Prop where
  head_eq : head = ids.head?
  tail_eq : tail = ids.getLast?
  nodup : ids.Nodup
  between : ∀ a id b, ids = a ++ id :: b → link id = some ⟨a.getLast?, b.head?⟩

namespace Linked

variable {link link' : Nat → Option Link} {head tail : Option Nat} {ids : List Nat}

theorem nil : Linked link none none [] :=
  ⟨rfl, rfl, nodup_nil, fun a id b h => by simp at h⟩

/-- Links of nodes outside the sequence do not matter. -/
theorem congr (h : Linked link head tail ids) (he : ∀ id ∈ ids, link' id = link id) :
    Linked link' head tail ids := by
  refine ⟨h.head_eq, h.tail_eq, h.nodup, fun a id b hs => ?_⟩
  rw [he id (by rw [hs]; simp)]
  exact h.between a id b hs

/-- A node's links can be read at the place where it stands. -/
theorem link_eq {a b : List Nat} {id : Nat} (h : Linked link head tail (a ++ id :: b)) :
    link id = some ⟨a.getLast?, b.head?⟩ := h.between a id b rfl

theorem next_mem {a b : List Nat} {id n : Nat} (h : b.head? = some n) : n ∈ a ++ id :: b :=
  mem_append_right _ (mem_cons_of_mem _ (mem_of_head? h))

theorem head_mem (h : Linked link head tail ids) {id : Nat} (hh : head = some id) : id ∈ ids :=
  mem_of_head? (h.head_eq.symm.trans hh)

/-- The sequence is empty when it has no head. -/
theorem eq_nil (h : Linked link none tail ids) :
    ids = [] := List.head?_eq_none_iff.mp h.head_eq.symm

/-- The node after one of the sequence is one of the sequence. -/
theorem next_of_mem (h : Linked link head tail ids) {id n : Nat} {l : Link} (hid : id ∈ ids)
    (hl : link id = some l) (hn : l.next = some n) : n ∈ ids := by
  obtain ⟨a, b, rfl⟩ := append_of_mem hid
  rw [h.link_eq] at hl
  cases hl
  exact next_mem hn

/-- A node that is pushed goes behind the old tail. -/
theorem push (h : Linked link head tail ids) {x : Nat} (hx : x ∉ ids)
    (hself : link' x = some ⟨tail, none⟩)
    (htail : ∀ t, tail = some t → link' t = (link t).map (fun l => { l with next := some x }))
    (hother : ∀ id ∈ ids, tail ≠ some id → link' id = link id) :
    Linked link' (head.or (some x)) (some x) (ids ++ [x]) := by
  refine ⟨?_, by simp, ?_, ?_⟩
  · rw [h.head_eq, List.head?_append]
    rfl
  · exact nodup_append.mpr ⟨h.nodup, nodup_singleton x, fun a ha b hb he =>
      hx (by rw [← mem_singleton.mp hb, ← he]; exact ha)⟩
  · intro a id b hs
    -- the node is the new one, or stands in the old sequence
    rcases eq_nil_or_concat b with rfl | ⟨c, y, rfl⟩
    · obtain ⟨rfl, hid⟩ := append_inj' hs rfl
      cases hid
      rw [hself, h.tail_eq]
      rfl
    · have hs' : ids ++ [x] = (a ++ id :: c) ++ [y] := by simpa using hs
      obtain ⟨hids, hxy⟩ := append_inj' hs' rfl
      cases hxy
      have hold := h.between a id c hids
      have hmem : id ∈ ids := by rw [hids]; simp
      cases c with
      | nil =>
        have ht : tail = some id := by rw [h.tail_eq, hids]; simp
        rw [htail id ht, hold]
        rfl
      | cons z zs =>
        have hne : tail ≠ some id := by
          intro ht
          have hnd := h.nodup
          rw [h.tail_eq, hids] at ht
          rw [hids] at hnd
          have hin : id ∈ z :: zs := by
            rw [List.getLast?_append_of_ne_nil _ (by simp), List.getLast?_cons_cons] at ht
            exact mem_of_getLast? ht
          rw [nodup_append] at hnd
          exact (nodup_cons.mp hnd.2.1).1 hin
        rw [hother id hmem hne, hold]
        rfl

/-- A node that is taken out leaves its neighbours linked to each other. -/
theorem remove {a b : List Nat} {x : Nat} (h : Linked link head tail (a ++ x :: b))
    (hprev : ∀ p, a.getLast? = some p →
      link' p = (link p).map (fun l => { l with next := b.head? })) (hnext : ∀ n, b.head? = some n →
      link' n = (link n).map (fun l => { l with prev := a.getLast? }))
    (hother : ∀ id ∈ a ++ b, a.getLast? ≠ some id → b.head? ≠ some id → link' id = link id) :
    Linked link' (if a.getLast? = none then b.head? else head)
      (if b.head? = none then a.getLast? else tail) (a ++ b) := by
  have hnd := h.nodup
  obtain ⟨hna, hnxb, hdis⟩ := nodup_append.mp hnd
  have hnb := (nodup_cons.mp hnxb).2
  refine ⟨?_, ?_, ?_, ?_⟩
  · cases a with
    | nil => simp
    | cons =>
      rw [h.head_eq]
      simp
  · cases b with
    | nil => simp
    | cons =>
      rw [h.tail_eq]
      simp
  · exact nodup_append.mpr ⟨hna, hnb, fun c hc d hd => hdis c hc d (mem_cons_of_mem _ hd)⟩
  · intro a' id b' hs
    rcases append_eq_append_iff.mp hs with ⟨c, rfl, hb⟩ | ⟨c, rfl, hb⟩
    · -- the node stands after the gap
      subst hb
      have hold : link id = some ⟨(a ++ x :: c).getLast?, b'.head?⟩ :=
        h.between (a ++ x :: c) id b' (by simp)
      cases c with
      | nil =>
        rw [hnext id rfl, hold]
        simp
      | cons z zs =>
        have hmem : id ∈ (z :: zs) ++ id :: b' := by simp
        have h1 : a.getLast? ≠ some id := fun he =>
          hdis id (mem_of_getLast? he) id (mem_cons_of_mem _ hmem) rfl
        have h2 : ((z :: zs) ++ id :: b').head? ≠ some id := by
          intro he
          have hz : z = id := by simpa using he
          rw [nodup_append] at hnb
          exact hnb.2.2 z mem_cons_self id mem_cons_self hz
        rw [hother id (mem_append_right _ hmem) h1 h2, hold]
        simp
    · -- the node stands before the gap, or is the first after it
      cases c with
      | nil =>
        have hb' : b = id :: b' := by simpa using hb.symm
        subst hb'
        have hold : link id = some ⟨(a' ++ [x]).getLast?, b'.head?⟩ :=
          h.between (a' ++ [x]) id b' (by simp)
        rw [hnext id rfl, hold]
        simp
      | cons z zs =>
        obtain ⟨rfl, rfl⟩ : id = z ∧ b' = zs ++ b := by simpa using hb
        have hold : link id = some ⟨a'.getLast?, (zs ++ x :: b).head?⟩ :=
          h.between a' id (zs ++ x :: b) (by simp)
        cases zs with
        | nil =>
          rw [hprev id (by simp), hold]
          simp
        | cons w ws =>
          have hnd' := (nodup_append.mp hna).2.1
          have h1 : (a' ++ id :: w :: ws).getLast? ≠ some id := by
            intro he
            rw [List.getLast?_append_of_ne_nil _ (by simp), List.getLast?_cons_cons] at he
            exact (nodup_cons.mp hnd').1 (mem_of_getLast? he)
          have h2 : b.head? ≠ some id := fun he =>
            hdis id (by simp) id (mem_cons_of_mem _ (mem_of_head? he)) rfl
          rw [hother id (by simp) h1 h2, hold]
          simp

end Linked

end links
