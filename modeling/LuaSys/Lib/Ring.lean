import LuaSys.Lib.DList

/-!
# Circular lists

A ring is a doubly linked list whose last node points to its first one and back.  It is
known by one of its nodes, the head, or is empty.

## Main definitions

* `Ring next prev head l` — the nodes met from the head are those of `l`.

## Main results

* `Ring.concat`, `ring_single` — a node is linked before the head.
* `Ring.unique` — the head and the links determine the nodes.
* `Ring.rotate` — a ring may be read from any of its nodes.
* `Ring.tail`, `Ring.erase` — the head, or any node, is unlinked.
-/

namespace LuaSys.Lib

variable {α : Type*} {next prev next' prev' : α → α} {head : Option α} {a b : α} {l : List α}

/-- The nodes of `l` are linked in a circle, from `head` on, in both directions. -/
def Ring (next prev : α → α) (head : Option α) (l : List α) : Prop :=
  l.Nodup ∧ head = l.head? ∧ ∀ a, head = some a → ∃ t, DSeg id next prev a t l a t

theorem ring_nil : Ring next prev none [] := ⟨List.nodup_nil, rfl, by simp⟩

theorem Ring.nodup (h : Ring next prev head l) : l.Nodup := h.1

theorem Ring.eq_nil (h : Ring next prev none l) : l = [] := List.head?_eq_none_iff.mp h.2.1.symm

theorem Ring.eq_cons (h : Ring next prev (some a) l) : ∃ l', l = a :: l' :=
  List.head?_eq_some_iff.mp h.2.1.symm

theorem Ring.head_mem (h : Ring next prev (some a) l) : a ∈ l := by
  obtain ⟨l', rfl⟩ := h.eq_cons
  simp

/-- A ring depends on the links of its own nodes only. -/
theorem Ring.congr (h : Ring next prev head l) (hn : ∀ a ∈ l, next' a = next a)
    (hp : ∀ a ∈ l, prev' a = prev a) : Ring next' prev' head l := by
  refine ⟨h.1, h.2.1, fun a ha => ?_⟩
  obtain ⟨t, hseg⟩ := h.2.2 a ha
  exact ⟨t, hseg.congr hn hp⟩

/-- The head and the links determine the nodes. -/
theorem Ring.unique {l' : List α} (h : Ring next prev head l) (h' : Ring next prev head l') : l = l' := by
  cases head with
  | none => rw [h.eq_nil, h'.eq_nil]
  | some a =>
      obtain ⟨m, rfl⟩ := h.eq_cons
      obtain ⟨m', rfl⟩ := h'.eq_cons
      obtain ⟨t, hseg⟩ := h.2.2 a rfl
      obtain ⟨t', hseg'⟩ := h'.2.2 a rfl
      congr 1
      exact hseg.2.2.forward.nodes_unique Function.injective_id hseg'.2.2.forward
        (fun b hb => ne_of_mem_of_not_mem hb h.nodup.notMem)
        fun b hb => ne_of_mem_of_not_mem hb h'.nodup.notMem

/-- A ring may be read from any of its nodes. -/
theorem Ring.rotate {l₁ l₂ : List α} (h : Ring next prev head (l₁ ++ a :: l₂)) :
    Ring next prev (some a) (a :: l₂ ++ l₁) := by
  refine ⟨List.perm_append_comm.nodup_iff.mp h.1, rfl, ?_⟩
  intro c hc
  obtain rfl := Option.some.inj hc
  cases l₁ with
  | nil =>
      rw [List.append_nil]
      exact h.2.2 a h.2.1
  | cons b l₁ =>
      obtain ⟨t, hseg⟩ := h.2.2 b h.2.1
      -- The two parts of the segment are joined the other way around.
      obtain ⟨a', p, hfirst, hlast⟩ := dseg_append.mp hseg
      obtain rfl : a' = a := hlast.1
      exact ⟨p, dseg_append.mpr ⟨b, t, hlast, hfirst⟩⟩

/-- The ring read from a member. -/
theorem Ring.of_mem (h : Ring next prev head l) (ha : a ∈ l) :
    ∃ l₁ l₂, l = l₁ ++ a :: l₂ ∧ Ring next prev (some a) (a :: (l₂ ++ l₁)) := by
  obtain ⟨l₁, l₂, rfl⟩ := List.append_of_mem ha
  exact ⟨l₁, l₂, rfl, h.rotate⟩

/-- The node before the head is the last one. -/
theorem Ring.prev_mem (h : Ring next prev (some a) l) : prev a ∈ l := by
  obtain ⟨l', rfl⟩ := h.eq_cons
  obtain ⟨t, hseg⟩ := h.2.2 a rfl
  rw [hseg.2.1]
  have ht := hseg.tail_eq
  rw [List.getLast?_eq_some_getLast (List.cons_ne_nil a l')] at ht
  simp only [Option.map_some, id_eq, Option.getD_some] at ht
  exact ht ▸ List.getLast_mem _

/-- The node behind the head belongs to the ring. -/
theorem Ring.next_mem (h : Ring next prev (some a) l) : next a ∈ l := by
  obtain ⟨l', rfl⟩ := h.eq_cons
  obtain ⟨t, hseg⟩ := h.2.2 a rfl
  have hhead := hseg.2.2.head_eq
  cases l' with
  | nil => simpa using hhead
  | cons b l' => simp [hhead]

/-- The head is its own successor in a ring of one node only. -/
theorem Ring.next_eq_self (h : Ring next prev (some a) (a :: l)) : next a = a ↔ l = [] := by
  obtain ⟨t, hseg⟩ := h.2.2 a rfl
  have hhead := hseg.2.2.head_eq
  cases l with
  | nil => simpa using hhead
  | cons b l =>
      have hb : next a = b := by simpa using hhead
      have hne : b ≠ a := fun heq => (List.nodup_cons.mp h.1).1 (by simp [heq])
      simp [hb, hne]

/-- The neighbours of a member are members. -/
theorem Ring.links_mem (h : Ring next prev head l) (ha : a ∈ l) : next a ∈ l ∧ prev a ∈ l := by
  obtain ⟨l₁, l₂, rfl, hring⟩ := h.of_mem ha
  have hperm : (a :: (l₂ ++ l₁)).Perm (l₁ ++ a :: l₂) :=
    (List.perm_append_comm : (a :: l₂ ++ l₁).Perm (l₁ ++ a :: l₂))
  exact ⟨hperm.mem_iff.mp hring.next_mem, hperm.mem_iff.mp hring.prev_mem⟩

section update
variable [DecidableEq α]

/-- A ring of one node. -/
theorem ring_single (next prev : α → α) (a : α) :
    Ring (Function.update next a a) (Function.update prev a a) (some a) [a] := by
  refine ⟨List.nodup_singleton a, rfl, ?_⟩
  rintro b hb
  obtain rfl := Option.some.inj hb
  exact ⟨a, by simp⟩

/-- A node outside the ring is linked before the head. -/
theorem Ring.concat (h : Ring next prev (some b) l) (ha : a ∉ l) :
    Ring (Function.update (Function.update next (prev b) a) a b)
      (Function.update (Function.update prev a (prev b)) b a) (some b) (l ++ [a]) := by
  obtain ⟨l', rfl⟩ := h.eq_cons
  obtain ⟨t, hseg⟩ := h.2.2 b rfl
  have hprev : prev b = t := hseg.2.1
  have hba : b ≠ a := fun heq => ha (by simp [heq])
  have hb : b ∉ l' := (List.nodup_cons.mp h.1).1
  have hlast : (b :: l').getLast? = some t := by
    have ht := hseg.tail_eq
    rw [List.getLast?_eq_some_getLast (List.cons_ne_nil b l')] at ht ⊢
    simpa using ht.symm
  refine ⟨h.1.append (List.nodup_singleton a) (by simpa using ⟨Ne.symm hba, fun hmem => ha (by simp [hmem])⟩),
    rfl, ?_⟩
  intro c hc
  obtain rfl := Option.some.inj hc
  refine ⟨a, dseg_concat.mpr ⟨?_, by simp, rfl⟩⟩
  rw [Function.update_of_ne (Ne.symm hba), Function.update_self, hprev]
  -- First the boundaries of the old segment move, then the links of the new node are set.
  have hseg₁ := (hseg.set_prev hb a).set_next_last h.1 hlast a
  refine hseg₁.congr (fun x hx => ?_) fun x hx => ?_
  · have hxa : x ≠ a := fun heq => ha (heq ▸ hx)
    rw [Function.update_of_ne hxa]
  · have hxa : x ≠ a := fun heq => ha (heq ▸ hx)
    by_cases hxb : x = b
    · simp [hxb]
    · rw [Function.update_of_ne hxb, Function.update_of_ne hxb, Function.update_of_ne hxa]

/-- The head is unlinked from a ring of more than one node. -/
theorem Ring.tail (h : Ring next prev (some a) (a :: l)) (hl : l ≠ []) :
    Ring (Function.update next (prev a) (next a)) (Function.update prev (next a) (prev a))
      (some (next a)) l := by
  obtain ⟨t, hseg⟩ := h.2.2 a rfl
  obtain ⟨-, hprev, hrest⟩ := hseg
  obtain ⟨hal, hnd⟩ := List.nodup_cons.mp h.1
  obtain ⟨b, l', rfl⟩ := List.exists_cons_of_ne_nil hl
  have hnext : next a = b := hrest.1
  have hlast : (b :: l').getLast? = some t := by
    have ht := hrest.tail_eq
    rw [List.getLast?_eq_some_getLast (List.cons_ne_nil b l')] at ht ⊢
    simpa using ht.symm
  refine ⟨hnd, by rw [hnext]; rfl, ?_⟩
  intro c hc
  obtain rfl : next a = c := Option.some.inj hc
  rw [hprev, hnext]
  rw [hnext] at hrest
  exact ⟨t, (hrest.set_prev (List.nodup_cons.mp hnd).1 t).set_next_last hnd hlast b⟩

/-- A member is its own successor in a ring of one node only. -/
theorem Ring.next_eq_self_iff (h : Ring next prev head l) (ha : a ∈ l) :
    next a = a ↔ l.erase a = [] := by
  obtain ⟨l₁, l₂, rfl, hring⟩ := h.of_mem ha
  have hnot : a ∉ l₁ := fun hmem => (List.nodup_middle.mp h.1).notMem (List.mem_append_left _ hmem)
  rw [hring.next_eq_self, List.erase_append_right _ hnot, List.erase_cons_head, List.append_eq_nil_iff,
    List.append_eq_nil_iff, and_comm]

/-- A member is unlinked from a ring of more than one node. -/
theorem Ring.erase (h : Ring next prev head l) (ha : a ∈ l) (hl : l.erase a ≠ []) :
    Ring (Function.update next (prev a) (next a)) (Function.update prev (next a) (prev a))
      (if head = some a then some (next a) else head) (l.erase a) := by
  obtain ⟨l₁, l₂, rfl, hring⟩ := h.of_mem ha
  have hnot : a ∉ l₁ := fun hmem => (List.nodup_middle.mp h.1).notMem (List.mem_append_left _ hmem)
  rw [List.erase_append_right _ hnot, List.erase_cons_head] at hl ⊢
  -- The ring is read from the member, which is then the head.
  have htail := hring.tail fun hnil => hl (by
    rw [List.append_eq_nil_iff] at hnil ⊢
    exact hnil.symm)
  cases l₁ with
  | nil =>
      rw [if_pos (show head = some a from h.2.1)]
      rwa [List.append_nil] at htail
  | cons b l₁ =>
      have hhead : head = some b := h.2.1
      have hba : head ≠ some a := by
        rw [hhead, ne_eq, Option.some_inj]
        rintro rfl
        exact hnot List.mem_cons_self
      rw [if_neg hba, hhead]
      exact htail.rotate

end update

end LuaSys.Lib
