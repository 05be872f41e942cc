import LuaSys.Lib.Path

/-!
# A stack threaded through its elements

The elements of a stack carry the link to the next one themselves.  Pushing an
element that is in the stack already assigns its link a second time and so cuts the
stack, or closes it to a cycle.  The link is a field of a shared record, and another
writer may overwrite it: the value `v` then is a pointer to no element.

The events of a run are kept in a list.  A run is clean if no element is pushed
twice and no link is overwritten behind the push.  The main results say that the
stack holds the pushed elements if and only if the run is clean, and which elements
can be reached in any case: those whose last push has a clean run behind it.

## Main definitions

* `StackEvent` — a push, or a foreign write to a link.
* `LinkStack.run` — the head and the links after some events.
* `Clean` — nothing is pushed twice or overwritten after its push.
* `Shown` — an element whose push is followed by a clean run.

## Main results

* `path_of_clean` — a clean run leaves the pushed elements in the stack, last first.
* `exists_null_path_iff` — the links from the head end at the null pointer if and only
  if the run is clean.
* `reaches_iff_shown` — the elements that the links lead to.
-/

namespace LuaSys.Lib

variable {α β : Type*}

/-- One access to the links. -/
inductive StackEvent (α β : Type*)
  /-- The element becomes the head and points to the old one. -/
  | push (x : α)
  /-- The link of the element is overwritten. -/
  | spoil (x : α) (v : β)

/-- The head of the stack and the link of each element. -/
structure LinkStack (α β : Type*) where
  head : β
  next : α → β

namespace LinkStack

variable [DecidableEq α]

/-- The effect of one event. -/
def apply (ptr : α → β) (s : LinkStack α β) : StackEvent α β → LinkStack α β
  | .push x => ⟨ptr x, Function.update s.next x s.head⟩
  | .spoil x v => ⟨s.head, Function.update s.next x v⟩

/-- The effect of some events. -/
def run (ptr : α → β) (s : LinkStack α β) (es : List (StackEvent α β)) : LinkStack α β :=
  es.foldl (apply ptr) s

end LinkStack

/-- The elements pushed, in order. -/
def pushed : List (StackEvent α β) → List α
  | [] => []
  | .push x :: es => x :: pushed es
  | .spoil _ _ :: es => pushed es

/-- The elements whose link is overwritten. -/
def spoiled : List (StackEvent α β) → List α
  | [] => []
  | .push _ :: es => spoiled es
  | .spoil x _ :: es => x :: spoiled es

/-- No element is pushed twice, and no link is overwritten after the push. -/
def Clean : List (StackEvent α β) → Prop
  | [] => True
  | .push x :: es => x ∉ pushed es ∧ x ∉ spoiled es ∧ Clean es
  | .spoil _ _ :: es => Clean es

/-- The element is pushed, then never again, and the events after that are clean. -/
def Shown (x : α) (es : List (StackEvent α β)) : Prop :=
  ∃ pre suf, es = pre ++ .push x :: suf ∧ x ∉ pushed suf ∧ Clean suf

/-- The links lead from the head to the element. -/
def LinkStack.Reaches (ptr : α → β) (s : LinkStack α β) (x : α) : Prop :=
  ∃ l, Path ptr s.next s.head l (ptr x)

/-- Whether a run is clean is decided event by event. -/
instance Clean.decidable [DecidableEq α] : ∀ es : List (StackEvent α β), Decidable (Clean es)
  | [] => isTrue trivial
  | .push x :: es =>
      have := Clean.decidable es
      inferInstanceAs (Decidable (x ∉ pushed es ∧ x ∉ spoiled es ∧ Clean es))
  | .spoil _ _ :: es => Clean.decidable es

/-! ## The elements shown -/

section events
variable {x y : α} {v : β} {es : List (StackEvent α β)}

theorem pushed_append (es es' : List (StackEvent α β)) :
    pushed (es ++ es') = pushed es ++ pushed es' := by
  induction es with
  | nil => rfl
  | cons e es ih => cases e <;> simp [pushed, ih]

theorem mem_pushed : x ∈ pushed es ↔ .push x ∈ es := by
  induction es with
  | nil => simp [pushed]
  | cons e es ih => cases e <;> simp [pushed, ih]

theorem spoiled_append (es es' : List (StackEvent α β)) :
    spoiled (es ++ es') = spoiled es ++ spoiled es' := by
  induction es with
  | nil => rfl
  | cons e es ih => cases e <;> simp [spoiled, ih]

/-- The first part of a clean run is clean. -/
theorem Clean.of_append {es es' : List (StackEvent α β)} (h : Clean (es ++ es')) : Clean es := by
  induction es with
  | nil => trivial
  | cons e es ih =>
      cases e with
      | push x =>
          rw [List.cons_append, Clean, pushed_append, spoiled_append] at h
          obtain ⟨hp, hs, hc⟩ := h
          exact ⟨fun hx => hp (List.mem_append_left _ hx), fun hx => hs (List.mem_append_left _ hx),
            ih hc⟩
      | spoil x v => exact ih h

theorem shown_nil : ¬Shown x ([] : List (StackEvent α β)) := by
  rintro ⟨pre, suf, h, -⟩
  simp at h

theorem shown_push_cons :
    Shown x (.push y :: es) ↔ (x = y ∧ x ∉ pushed es ∧ Clean es) ∨ Shown x es := by
  constructor
  · rintro ⟨pre, suf, h, hx, hc⟩
    cases pre with
    | nil =>
        obtain ⟨hy, rfl⟩ := List.cons.inj h
        exact Or.inl ⟨(StackEvent.push.inj hy).symm, hx, hc⟩
    | cons e pre => exact Or.inr ⟨pre, suf, (List.cons.inj h).2, hx, hc⟩
  · rintro (⟨rfl, hx, hc⟩ | ⟨pre, suf, rfl, hx, hc⟩)
    · exact ⟨[], es, rfl, hx, hc⟩
    · exact ⟨.push y :: pre, suf, rfl, hx, hc⟩

theorem shown_spoil_cons : Shown x (.spoil y v :: es) ↔ Shown x es := by
  constructor
  · rintro ⟨pre, suf, h, hx, hc⟩
    cases pre with
    | nil => exact absurd (List.cons.inj h).1 (by simp)
    | cons e pre => exact ⟨pre, suf, (List.cons.inj h).2, hx, hc⟩
  · rintro ⟨pre, suf, rfl, hx, hc⟩
    exact ⟨.spoil y v :: pre, suf, rfl, hx, hc⟩

theorem Shown.mem_pushed (h : Shown x es) : x ∈ pushed es := by
  obtain ⟨pre, suf, rfl, -⟩ := h
  rw [pushed_append]
  exact List.mem_append_right _ List.mem_cons_self

/-- What a run shows is shown by one of its parts. -/
theorem Shown.of_append {es' : List (StackEvent α β)} (h : Shown x (es ++ es')) :
    Shown x es ∨ Shown x es' := by
  induction es with
  | nil => exact Or.inr h
  | cons e es ih =>
      cases e with
      | push y =>
          rw [List.cons_append, shown_push_cons] at h
          rw [shown_push_cons]
          rcases h with ⟨rfl, hp, hc⟩ | h
          · rw [pushed_append, List.mem_append, not_or] at hp
            exact Or.inl (Or.inl ⟨rfl, hp.1, hc.of_append⟩)
          · exact (ih h).imp_left Or.inr
      | spoil y v =>
          rw [List.cons_append, shown_spoil_cons] at h
          rw [shown_spoil_cons]
          exact ih h

theorem Shown.of_flatten {ess : List (List (StackEvent α β))} (h : Shown x ess.flatten) :
    ∃ es ∈ ess, Shown x es := by
  induction ess with
  | nil => exact absurd h shown_nil
  | cons es ess ih =>
      rcases Shown.of_append (List.flatten_cons ▸ h) with h | h
      · exact ⟨es, List.mem_cons_self, h⟩
      · obtain ⟨es', hmem, h'⟩ := ih h
        exact ⟨es', List.mem_cons_of_mem _ hmem, h'⟩

/-- After a clean run all pushed elements are shown. -/
theorem Clean.shown_iff (h : Clean es) : Shown x es ↔ x ∈ pushed es := by
  refine ⟨Shown.mem_pushed, fun hx => ?_⟩
  induction es with
  | nil => exact absurd hx List.not_mem_nil
  | cons e es ih =>
      cases e with
      | push y =>
          obtain ⟨hp, -, hc⟩ := h
          rw [shown_push_cons]
          rcases List.mem_cons.mp hx with rfl | hx
          · exact Or.inl ⟨rfl, hp, hc⟩
          · exact Or.inr (ih hc hx)
      | spoil y v => exact shown_spoil_cons.mpr (ih h hx)

end events

/-! ## The links after a run -/

section run
variable [DecidableEq α] {ptr : α → β} {x : α} {es : List (StackEvent α β)}

theorem run_cons (ptr : α → β) (s : LinkStack α β) (e : StackEvent α β)
    (es : List (StackEvent α β)) : s.run ptr (e :: es) = (s.apply ptr e).run ptr es := rfl

theorem run_append (ptr : α → β) (s : LinkStack α β) (es es' : List (StackEvent α β)) :
    s.run ptr (es ++ es') = (s.run ptr es).run ptr es' := List.foldl_append

/-- The link of an element that no event is about stays. -/
theorem run_next_of_notMem (ptr : α → β) (hp : x ∉ pushed es) (hs : x ∉ spoiled es)
    (s : LinkStack α β) :
    (s.run ptr es).next x = s.next x := by
  induction es generalizing s with
  | nil => rfl
  | cons e es ih =>
      cases e with
      | push y =>
          rw [pushed, List.mem_cons, not_or] at hp
          rw [run_cons, ih hp.2 hs]
          exact Function.update_of_ne hp.1 _ _
      | spoil y v =>
          rw [spoiled, List.mem_cons, not_or] at hs
          rw [run_cons, ih hp hs.2]
          exact Function.update_of_ne hs.1 _ _

/-- The link of an element that is only overwritten holds a value of these writes. -/
theorem run_next_of_spoiled (ptr : α → β) (hp : x ∉ pushed es) (hs : x ∈ spoiled es)
    (s : LinkStack α β) :
    .spoil x ((s.run ptr es).next x) ∈ es := by
  induction es generalizing s with
  | nil => exact absurd hs List.not_mem_nil
  | cons e es ih =>
      rw [run_cons]
      cases e with
      | push y =>
          rw [pushed, List.mem_cons, not_or] at hp
          exact List.mem_cons_of_mem _ (ih hp.2 hs _)
      | spoil y v =>
          by_cases hlast : x ∈ spoiled es
          · exact List.mem_cons_of_mem _ (ih hp hlast _)
          · obtain rfl := (List.mem_cons.mp hs).resolve_right hlast
            have hp' : x ∉ pushed es := hp
            rw [run_next_of_notMem ptr hp' hlast]
            simp [LinkStack.apply]

/-- A clean run puts the pushed elements on the stack. -/
theorem path_of_clean (h : Clean es) (s : LinkStack α β) :
    Path ptr (s.run ptr es).next (s.run ptr es).head (pushed es).reverse s.head := by
  induction es generalizing s with
  | nil => rfl
  | cons e es ih =>
      rw [run_cons]
      cases e with
      | push x =>
          obtain ⟨hp, hs, hc⟩ := h
          rw [pushed, List.reverse_cons, path_concat]
          refine ⟨ih hc _, ?_⟩
          rw [run_next_of_notMem ptr hp hs]
          exact Function.update_self ..
      | spoil x v => exact ih h (s.apply ptr (.spoil x v))

variable {null : β} (hptr : Function.Injective ptr) (hnull : ∀ a, ptr a ≠ null)
  (hbad : ∀ x v, .spoil x v ∈ es → v ≠ null ∧ ∀ a, ptr a ≠ v)

include hptr hnull hbad in
/-- After any other run the links from the head end at a foreign value or in a cycle. -/
theorem path_of_not_clean (h : ¬Clean es) (s : LinkStack α β) :
    ∃ l e, Path ptr (s.run ptr es).next (s.run ptr es).head l e ∧ e ≠ null ∧
      (∀ b, e = ptr b → b ∈ l) ∧ ∀ x, x ∈ l ↔ Shown x es := by
  induction es generalizing s with
  | nil => exact absurd trivial h
  | cons e es ih =>
      have hbad' : ∀ x v, .spoil x v ∈ es → v ≠ null ∧ ∀ a, ptr a ≠ v :=
        fun x v hv => hbad x v (List.mem_cons_of_mem _ hv)
      rw [run_cons]
      cases e with
      | spoil y v =>
          simp only [shown_spoil_cons]
          exact ih hbad' h _
      | push y =>
          simp only [shown_push_cons]
          by_cases hc : Clean es
          · have hpath : Path ptr _ _ _ (ptr y) := path_of_clean hc (s.apply ptr (.push y))
            by_cases hp : y ∈ pushed es
            · -- The element below the clean part is in it: a cycle.
              refine ⟨_, ptr y, hpath, hnull y, fun b hb => ?_, fun x => ?_⟩
              · rw [← hptr hb, List.mem_reverse]
                exact hp
              · rw [List.mem_reverse, hc.shown_iff]
                refine ⟨Or.inr, fun hx => hx.resolve_left ?_⟩
                rintro ⟨rfl, hx, -⟩
                exact hx hp
            · -- Its link was overwritten: the path ends at the foreign value.
              have hs : y ∈ spoiled es := by
                by_contra hs
                exact h ⟨hp, hs, hc⟩
              have hlink := hbad' y _ (run_next_of_spoiled ptr hp hs (s.apply ptr (.push y)))
              refine ⟨_, _, path_concat.mpr ⟨hpath, rfl⟩, hlink.1,
                fun b hb => absurd hb.symm (hlink.2 b), fun x => ?_⟩
              rw [List.mem_append, List.mem_reverse, List.mem_singleton, hc.shown_iff, or_comm]
              refine or_congr_left ⟨fun hx => ?_, And.left⟩
              rw [hx]
              exact ⟨rfl, hp, hc⟩
          · obtain ⟨l, e, hpath, hne, hcycle, hmem⟩ := ih hbad' hc (s.apply ptr (.push y))
            refine ⟨l, e, hpath, hne, hcycle, fun x => ?_⟩
            rw [hmem]
            simp [hc]

include hptr hnull hbad in
/-- The links from the head end at the null pointer if and only if the run is clean. -/
theorem exists_null_path_iff {s : LinkStack α β} (hs : s.head = null) :
    (∃ l, Path ptr (s.run ptr es).next (s.run ptr es).head l null) ↔ Clean es := by
  constructor
  · rintro ⟨l', hl'⟩
    by_contra hc
    obtain ⟨l, e, hpath, hne, hcycle, -⟩ := path_of_not_clean hptr hnull hbad hc s
    exact hpath.not_of_cycle hptr hnull hne hcycle hl'
  · intro hc
    exact ⟨_, hs ▸ path_of_clean hc s⟩

include hptr hnull hbad in
/-- The links lead to the elements shown. -/
theorem reaches_iff_shown {s : LinkStack α β} (hs : s.head = null) (x : α) :
    (s.run ptr es).Reaches ptr x ↔ Shown x es := by
  have hspec : ∃ l e, Path ptr (s.run ptr es).next (s.run ptr es).head l e ∧
      (∀ b, e = ptr b → b ∈ l) ∧ ∀ x, x ∈ l ↔ Shown x es := by
    by_cases hc : Clean es
    · refine ⟨_, _, path_of_clean hc s, fun b hb => ?_, fun x => ?_⟩
      · exact absurd (hb.symm.trans hs) (hnull b)
      · rw [List.mem_reverse, hc.shown_iff]
    · obtain ⟨l, e, hpath, -, hcycle, hmem⟩ := path_of_not_clean hptr hnull hbad hc s
      exact ⟨l, e, hpath, hcycle, hmem⟩
  obtain ⟨l, e, hpath, hcycle, hmem⟩ := hspec
  rw [← hmem]
  constructor
  · rintro ⟨l', hl'⟩
    exact hpath.mem_of_reach hptr hcycle hl'
  · intro hx
    obtain ⟨l₁, l₂, rfl⟩ := List.append_of_mem hx
    obtain ⟨r, hl₁, rfl, -⟩ := path_append.mp hpath
    exact ⟨l₁, hl₁⟩

end run

end LuaSys.Lib
