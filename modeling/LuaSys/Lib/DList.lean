import LuaSys.Lib.Path
import Mathlib.Logic.Function.Basic

/-!
# Doubly linked lists

A segment of a doubly linked structure is described from both of its ends at once:
the pointer that enters it, the pointer back out of its first node, the pointer out
of its last node and the pointer to that last node.  Segments that share a boundary
join, so an operation on a list is proved by cutting the list at the nodes that
change, moving the boundaries of the pieces, and joining the pieces again.

The links are functions of the node and an assignment is `Function.update`; an
assignment through a pointer that may be null is `assign`.

## Main definitions

* `DSeg ptr next prev h p l n t` — the nodes `l`, entered by `h`, with `p` before,
  `n` behind and `t` the last node.
* `DList next prev head tail l` — a segment between two null pointers.
* `assign f p v` — the assignment `f(p) = v` unless `p` is null.

## Main results

* `DList.append`, `DList.insert`, `DList.erase`, `DList.rotate` — the links after
  the pointer assignments of each operation.
-/

namespace LuaSys.Lib

variable {α β : Type*}

/-- A segment: `h` enters it and `p` is behind its first node; `n` leaves it and `t`
is its last node.  An empty segment has `h = n` and `p = t`. -/
def DSeg (ptr next prev : α → β) : β → β → List α → β → β → Prop
  | h, p, [], n, t => h = n ∧ p = t
  | h, p, a :: l, n, t => h = ptr a ∧ prev a = p ∧ DSeg ptr next prev (next a) (ptr a) l n t

section
variable {ptr next prev next' prev' : α → β} {h p n t : β} {a : α} {l l₁ l₂ : List α}

@[simp] theorem dseg_nil : DSeg ptr next prev h p [] n t ↔ h = n ∧ p = t := Iff.rfl

@[simp] theorem dseg_cons : DSeg ptr next prev h p (a :: l) n t ↔
    h = ptr a ∧ prev a = p ∧ DSeg ptr next prev (next a) (ptr a) l n t := Iff.rfl

/-- Segments join at their common boundary. -/
theorem dseg_append : DSeg ptr next prev h p (l₁ ++ l₂) n t ↔
    ∃ h' p', DSeg ptr next prev h p l₁ h' p' ∧ DSeg ptr next prev h' p' l₂ n t := by
  induction l₁ generalizing h p with
  | nil =>
      constructor
      · exact fun hl => ⟨h, p, ⟨rfl, rfl⟩, hl⟩
      · rintro ⟨h', p', ⟨rfl, rfl⟩, hl⟩
        exact hl
  | cons a l ih => simp [ih, and_assoc]

/-- A segment split at one of its nodes. -/
theorem dseg_append_cons : DSeg ptr next prev h p (l₁ ++ a :: l₂) n t ↔
    DSeg ptr next prev h p l₁ (ptr a) (prev a) ∧
      DSeg ptr next prev (next a) (ptr a) l₂ n t := by
  rw [dseg_append]
  constructor
  · rintro ⟨h', p', h₁, rfl, rfl, h₂⟩
    exact ⟨h₁, h₂⟩
  · rintro ⟨h₁, h₂⟩
    exact ⟨_, _, h₁, rfl, rfl, h₂⟩

theorem dseg_concat : DSeg ptr next prev h p (l ++ [a]) n t ↔
    DSeg ptr next prev h p l (ptr a) (prev a) ∧ next a = n ∧ ptr a = t := dseg_append_cons

/-- A segment depends on the links of its own nodes only. -/
theorem DSeg.congr (hl : DSeg ptr next prev h p l n t) (hn : ∀ a ∈ l, next' a = next a)
    (hp : ∀ a ∈ l, prev' a = prev a) : DSeg ptr next' prev' h p l n t := by
  induction l generalizing h p with
  | nil => exact hl
  | cons a l ih =>
      obtain ⟨rfl, rfl, hrest⟩ := hl
      refine ⟨rfl, hp a (by simp), ?_⟩
      rw [hn a (by simp)]
      exact ih hrest (fun b hb => hn b (by simp [hb])) fun b hb => hp b (by simp [hb])

/-- The forward links of a segment form a path. -/
theorem DSeg.forward (hl : DSeg ptr next prev h p l n t) : Path ptr next h l n := by
  induction l generalizing h p with
  | nil => exact hl.1
  | cons a l ih => exact ⟨hl.1, ih hl.2.2⟩

/-- The first node is what enters a segment that is not empty. -/
theorem DSeg.head_eq (hl : DSeg ptr next prev h p l n t) : h = (l.head?.map ptr).getD n := by
  cases l with
  | nil => exact hl.1
  | cons a l => exact hl.1

/-- The last node is what `t` points to. -/
theorem DSeg.tail_eq (hl : DSeg ptr next prev h p l n t) : t = (l.getLast?.map ptr).getD p := by
  rcases l.eq_nil_or_concat' with rfl | ⟨l, a, rfl⟩
  · exact hl.2.symm
  · simp [(dseg_concat.mp hl).2.2]

section update
variable [DecidableEq α]

/-- Move the boundary before a segment whose first node is `a`. -/
theorem DSeg.set_prev (hl : DSeg ptr next prev h p (a :: l) n t) (ha : a ∉ l) (p' : β) :
    DSeg ptr next (Function.update prev a p') h p' (a :: l) n t := by
  obtain ⟨rfl, -, hrest⟩ := hl
  refine ⟨rfl, by simp, hrest.congr (fun _ _ => rfl) fun b hb => ?_⟩
  rw [Function.update_of_ne]
  rintro rfl
  exact ha hb

/-- Move the boundary behind a segment whose last node is `a`. -/
theorem DSeg.set_next (hl : DSeg ptr next prev h p (l ++ [a]) n t) (ha : a ∉ l) (n' : β) :
    DSeg ptr (Function.update next a n') prev h p (l ++ [a]) n' t := by
  rw [dseg_concat] at hl ⊢
  refine ⟨hl.1.congr (fun b hb => ?_) fun _ _ => rfl, by simp, hl.2.2⟩
  rw [Function.update_of_ne]
  rintro rfl
  exact ha hb

theorem DSeg.set_next_last (hl : DSeg ptr next prev h p l n t) (hnd : l.Nodup)
    (ha : l.getLast? = some a) (n' : β) :
    DSeg ptr (Function.update next a n') prev h p l n' t := by
  rcases l.eq_nil_or_concat' with rfl | ⟨l, b, rfl⟩
  · exact absurd ha (by simp)
  · obtain rfl : b = a := by simpa using ha
    rw [List.nodup_append] at hnd
    exact hl.set_next (fun hb => hnd.2.2 b hb b (by simp) rfl) n'

/-- Assigning the links of a node outside a segment does not change it. -/
theorem DSeg.update_next (hl : DSeg ptr next prev h p l n t) (ha : a ∉ l) (v : β) :
    DSeg ptr (Function.update next a v) prev h p l n t := by
  refine hl.congr (fun b hb => ?_) fun _ _ => rfl
  rw [Function.update_of_ne]
  rintro rfl
  exact ha hb

theorem DSeg.update_prev (hl : DSeg ptr next prev h p l n t) (ha : a ∉ l) (v : β) :
    DSeg ptr next (Function.update prev a v) h p l n t := by
  refine hl.congr (fun _ _ => rfl) fun b hb => ?_
  rw [Function.update_of_ne]
  rintro rfl
  exact ha hb

end update
end

/-! ## Lists between null pointers -/

/-- A list linked in both directions, with null pointers at both ends. -/
def DList (next prev : α → Option α) (head tail : Option α) (l : List α) : Prop :=
  DSeg some next prev head none l none tail

/-- The assignment through a pointer, unless it is null. -/
def assign [DecidableEq α] (f : α → β) (p : Option α) (v : β) : α → β :=
  match p with
  | none => f
  | some a => Function.update f a v

section dlist
variable {next prev next' prev' : α → Option α} {head tail h p n t : Option α} {a : α}
  {l l₁ l₂ : List α}

@[simp] theorem assign_none [DecidableEq α] (f : α → β) (v : β) : assign f none v = f := rfl

@[simp] theorem assign_some [DecidableEq α] (f : α → β) (a : α) (v : β) :
    assign f (some a) v = Function.update f a v := rfl

theorem DList.nodup (hl : DList next prev head tail l) : l.Nodup := (DSeg.forward hl).nodup

theorem DList.congr (hl : DList next prev head tail l) (hn : ∀ a ∈ l, next' a = next a)
    (hp : ∀ a ∈ l, prev' a = prev a) : DList next' prev' head tail l := DSeg.congr hl hn hp

theorem DList.head_eq (hl : DList next prev head tail l) : head = l.head? := by
  rw [DSeg.head_eq hl]
  cases l <;> rfl

theorem DList.tail_eq (hl : DList next prev head tail l) : tail = l.getLast? := by
  rw [DSeg.tail_eq hl]
  cases l.getLast? <;> rfl

theorem DList.next_eq (hl : DList next prev head tail (l₁ ++ a :: l₂)) : next a = l₂.head? := by
  rw [DSeg.head_eq (dseg_append_cons.mp hl).2]
  cases l₂ <;> rfl

theorem DList.prev_eq (hl : DList next prev head tail (l₁ ++ a :: l₂)) :
    prev a = l₁.getLast? := by
  rw [DSeg.tail_eq (dseg_append_cons.mp hl).1]
  cases l₁.getLast? <;> rfl

section operations
variable [DecidableEq α]

/-- The statement `if (p) p->next = v; else head = v;` behind the nodes `l`. -/
theorem DSeg.assign_next (hl : DSeg some next prev h none l n t) (hnd : l.Nodup)
    (n' : Option α) :
    DSeg some (assign next t n') prev (if t = none then n' else h) none l n' t := by
  rcases l.eq_nil_or_concat' with rfl | ⟨l, a, rfl⟩
  · obtain ⟨rfl, rfl⟩ := hl
    exact ⟨by simp, rfl⟩
  · obtain rfl : some a = t := (dseg_concat.mp hl).2.2
    rw [if_neg (by simp), assign_some]
    exact hl.set_next_last hnd (by simp) n'

/-- The statement `if (n) n->prev = v; else tail = v;` before the nodes `l`. -/
theorem DSeg.assign_prev (hl : DSeg some next prev h p l none t) (hnd : l.Nodup)
    (p' : Option α) :
    DSeg some next (assign prev h p') h p' l none (if h = none then p' else t) := by
  cases l with
  | nil =>
      obtain ⟨rfl, rfl⟩ := hl
      exact ⟨rfl, by simp⟩
  | cons a l =>
      obtain rfl : h = some a := hl.1
      rw [if_neg (by simp), assign_some]
      exact hl.set_prev (List.nodup_cons.mp hnd).1 p'

theorem DSeg.frame_next (hl : DSeg some next prev h p l n t) {q : Option α}
    (hq : ∀ a ∈ l, q ≠ some a) (v : Option α) : DSeg some (assign next q v) prev h p l n t := by
  cases q with
  | none => exact hl
  | some b => exact hl.update_next (fun hb => hq b hb rfl) v

theorem DSeg.frame_prev (hl : DSeg some next prev h p l n t) {q : Option α}
    (hq : ∀ a ∈ l, q ≠ some a) (v : Option α) : DSeg some next (assign prev q v) h p l n t := by
  cases q with
  | none => exact hl
  | some b => exact hl.update_prev (fun hb => hq b hb rfl) v

/-- Unlink a node. -/
theorem DList.erase (hl : DList next prev head tail (l₁ ++ a :: l₂)) :
    DList (assign next (prev a) (next a)) (assign prev (next a) (prev a))
      (if prev a = none then next a else head) (if next a = none then prev a else tail)
      (l₁ ++ l₂) := by
  have hnd := hl.nodup
  have hnext := hl.next_eq
  have hprev := hl.prev_eq
  obtain ⟨h₁, h₂⟩ := dseg_append_cons.mp hl
  simp only [List.nodup_append, List.nodup_cons, List.mem_cons] at hnd
  obtain ⟨hnd₁, ⟨-, hnd₂⟩, hdisj⟩ := hnd
  refine dseg_append.mpr ⟨next a, prev a, ?_, ?_⟩
  · refine (h₁.assign_next hnd₁ (next a)).frame_prev (fun b hb heq => ?_) _
    rw [hnext] at heq
    exact hdisj b hb b (Or.inr (List.mem_of_mem_head? heq)) rfl
  · refine (h₂.assign_prev hnd₂ (prev a)).frame_next (fun b hb heq => ?_) _
    rw [hprev] at heq
    exact hdisj b (List.mem_of_mem_getLast? heq) b (Or.inr hb) rfl

/-- Link a new node between two parts of a list. -/
theorem DList.insert (hl : DList next prev head tail (l₁ ++ l₂)) (ha : a ∉ l₁ ++ l₂) :
    DList (assign (Function.update next a l₂.head?) l₁.getLast? (some a))
      (Function.update (assign prev l₂.head? (some a)) a l₁.getLast?)
      (if l₁.getLast? = none then some a else head)
      (if l₂.head? = none then some a else tail) (l₁ ++ a :: l₂) := by
  have hnd := hl.nodup
  obtain ⟨h', p', h₁, h₂⟩ := dseg_append.mp hl
  obtain rfl : h' = l₂.head? := by
    rw [h₂.head_eq]
    cases l₂ <;> rfl
  obtain rfl : p' = l₁.getLast? := by
    rw [h₁.tail_eq]
    cases l₁.getLast? <;> rfl
  rw [List.nodup_append] at hnd
  obtain ⟨hnd₁, hnd₂, hdisj⟩ := hnd
  rw [List.mem_append, not_or] at ha
  have hlast : ∀ b ∈ l₂, l₁.getLast? ≠ some b := fun b hb heq =>
    hdisj b (List.mem_of_mem_getLast? heq) b hb rfl
  have hhead : ∀ b ∈ l₁, l₂.head? ≠ some b := fun b hb heq =>
    hdisj b hb b (List.mem_of_mem_head? heq) rfl
  refine dseg_append_cons.mpr ⟨?_, ?_⟩
  · have hpa : (Function.update (assign prev l₂.head? (some a)) a l₁.getLast?) a = l₁.getLast? := by
      simp
    rw [hpa]
    exact ((h₁.update_next ha.1 _).assign_next hnd₁ (some a)).frame_prev hhead _ |>.update_prev
      ha.1 _
  · have hna : (assign (Function.update next a l₂.head?) l₁.getLast? (some a)) a = l₂.head? := by
      cases hc : l₁.getLast? with
      | none => simp
      | some b =>
          have hne : a ≠ b := by
            rintro rfl
            exact ha.1 (List.mem_of_mem_getLast? hc)
          simp [Function.update_of_ne hne]
    rw [hna]
    exact ((h₂.update_next ha.2 _).frame_next hlast _).assign_prev hnd₂ (some a) |>.update_prev
      ha.2 _

/-- Link a new node behind the last one. -/
theorem DList.append (hl : DList next prev head tail l) (ha : a ∉ l) :
    DList (Function.update (assign next tail (some a)) a none) (Function.update prev a tail)
      (if tail = none then some a else head) (some a) (l ++ [a]) := by
  have hnd := hl.nodup
  refine dseg_concat.mpr ⟨?_, by simp, rfl⟩
  rw [Function.update_self]
  exact ((DSeg.assign_next hl hnd (some a)).update_next ha _).update_prev ha _

/-- Move a node that is not the last one behind the last one. -/
theorem DList.moveLast {b d : α} (hl : DList next prev head (some d) (l₁ ++ a :: b :: l₂)) :
    DList (Function.update (Function.update (assign next (prev a) (some b)) a none) d (some a))
      (Function.update (Function.update prev b (prev a)) a (some d))
      (if prev a = none then some b else head) (some a) (l₁ ++ b :: l₂ ++ [a]) := by
  have hnext : next a = some b := hl.next_eq
  have hnot : a ∉ l₁ ++ b :: l₂ := (List.nodup_cons.mp (List.nodup_middle.mp hl.nodup)).1
  have htail : some d = (b :: l₂).getLast? := by
    rw [hl.tail_eq]
    simp [List.getLast?_cons]
  have hne : a ≠ d := by
    rintro rfl
    exact hnot (List.mem_append_right _ (List.mem_of_mem_getLast? htail.symm))
  have herase := hl.erase
  rw [hnext, assign_some, if_neg (show some b ≠ none by simp)] at herase
  have happ := herase.append hnot
  rwa [assign_some, if_neg (show some d ≠ none by simp), Function.update_comm hne.symm] at happ

/-- Move a first part of a list behind the rest. -/
theorem DList.rotate {b c d : α} (hl : DList next prev head tail ((a :: l₁) ++ (b :: l₂)))
    (hc : (a :: l₁).getLast? = some c) (hd : (b :: l₂).getLast? = some d) :
    DList (Function.update (Function.update next d (some a)) c none)
      (Function.update (Function.update prev b none) a (some d))
      (some b) (some c) ((b :: l₂) ++ (a :: l₁)) := by
  have hnd := hl.nodup
  obtain ⟨h', p', h₁, h₂⟩ := dseg_append.mp hl
  rw [List.nodup_append] at hnd
  obtain ⟨hnd₁, hnd₂, hdisj⟩ := hnd
  obtain rfl : h' = some b := h₂.1
  obtain rfl : head = some a := h₁.1
  obtain rfl : p' = some c := by rw [h₁.tail_eq, hc]; rfl
  obtain rfl : tail = some d := by rw [h₂.tail_eq, hd]; rfl
  have hdn : d ∉ a :: l₁ := fun hmem => hdisj d hmem d (List.mem_of_mem_getLast? hd) rfl
  have hcn : c ∉ b :: l₂ := fun hmem => hdisj c (List.mem_of_mem_getLast? hc) c hmem rfl
  have hbn : b ∉ a :: l₁ := fun hmem => hdisj b hmem b (by simp) rfl
  have han : a ∉ b :: l₂ := fun hmem => hdisj a (by simp) a hmem rfl
  refine dseg_append.mpr ⟨some a, some d, ?_, ?_⟩
  · exact (((h₂.set_prev (List.nodup_cons.mp hnd₂).1 none).set_next_last hnd₂ hd (some a)).update_next
      hcn none).update_prev han (some d)
  · exact (((h₁.update_next hdn (some a)).update_prev hbn none).set_next_last hnd₁ hc none).set_prev
      (List.nodup_cons.mp hnd₁).1 (some d)

end operations
end dlist

end LuaSys.Lib
