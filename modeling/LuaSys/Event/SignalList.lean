import LuaSys.Lib.Path

/-!
# The lists of signal events

The signal events of all event queues are kept in global lists, one for each signal the
library knows.  The list is `g_Signal.events[i]`, linked by the field `next_object` of the
events, and its lock is `g_Signal.cs`.  An event is linked at the head of its list; to unlink
one, `signal_del` walks to the event before it.

## Main definitions

* `SigNo`, `signalGethead` — the signals and the indexes of their lists.
* `SignalEvents.link`, `SignalEvents.unlink` — what `signal_add` and `signal_del` do to them.
* `SignalEvents.Lists` — the contents of the lists.

## Main results

* `Lists.link`, `Lists.exists_unlink` — the operations on the contents.
-/

namespace LuaSys.Event

open LuaSys.Lib

/-- The signals of `signal.h`, and any other number. -/
inductive SigNo
  | int
  | quit
  | hup
  | term
  | chld
  | other (signo : ℕ)
  deriving DecidableEq, Repr

/-- `signal_gethead`: the index of the list, or null. -/
def signalGethead : SigNo → Option ℕ
  | .int => some 0
  | .quit => some 1
  | .hup => some 2
  | .term => some 3
  | .chld => some 4
  | .other _ => none

theorem signalGethead_inj {a b : SigNo} {i : ℕ} (ha : signalGethead a = some i)
    (hb : signalGethead b = some i) : a = b := by
  cases a <;> cases b <;> simp_all [signalGethead] <;> omega

/-- `g_Signal`, and the links of the events. -/
structure SignalEvents (ε : Type*) where
  events : ℕ → Option ε
  nextObject : ε → Option ε

namespace SignalEvents

variable {ε : Type*} [DecidableEq ε]

/-- No events. -/
def init : SignalEvents ε where
  events _ := none
  nextObject _ := none

/-- The assignments of `signal_add`: the event becomes the head, and the old head, which may
be null, is behind it. -/
def link (g : SignalEvents ε) (i : ℕ) (ev : ε) : SignalEvents ε where
  events := Function.update g.events i (some ev)
  nextObject := Function.update g.nextObject ev (g.events i)

/-- The loop of `signal_del` that looks for the event before `ev`; to read the link of a null
pointer is undefined. -/
def findBefore (nextObject : ε → Option ε) (ev : ε) : ℕ → Option ε → Option ε
  | 0, _ => none
  | _ + 1, none => none
  | fuel + 1, some sigEv =>
      if nextObject sigEv ≠ some ev then findBefore nextObject ev fuel (nextObject sigEv)
      else some sigEv

/-- The assignments of `signal_del`. -/
def unlink (g : SignalEvents ε) (fuel i : ℕ) (ev : ε) : Option (SignalEvents ε) :=
  if g.events i = some ev then
    some { g with events := Function.update g.events i (g.nextObject ev) }
  else
    (findBefore g.nextObject ev fuel (g.events i)).map fun sigEv =>
      { g with nextObject := Function.update g.nextObject sigEv (g.nextObject ev) }

/-- A loop over the events of a list, from a pointer into it. -/
def foldEvents {β : Type*} (nextObject : ε → Option ε) (f : β → ε → β) : ℕ → Option ε → β → β
  | 0, _, b => b
  | _ + 1, none, b => b
  | fuel + 1, some ev, b => foldEvents nextObject f fuel (nextObject ev) (f b ev)

/-- The contents of the lists. -/
structure Lists (g : SignalEvents ε) (l : ℕ → List ε) : Prop where
  path : ∀ i, Path some g.nextObject (g.events i) (l i) none
  disjoint : ∀ i j, i ≠ j → (l i).Disjoint (l j)

variable {g : SignalEvents ε} {l : ℕ → List ε} {ev : ε} {i : ℕ}

omit [DecidableEq ε] in
theorem lists_init : (init : SignalEvents ε).Lists fun _ => [] :=
  ⟨fun _ => rfl, fun _ _ _ => List.disjoint_nil_left _⟩

omit [DecidableEq ε] in
theorem Lists.nodup (h : g.Lists l) (i : ℕ) : (l i).Nodup := (h.path i).nodup

omit [DecidableEq ε] in
theorem Lists.head_eq (h : g.Lists l) (i : ℕ) : g.events i = (l i).head? := by
  have hpath := h.path i
  cases hl : l i with
  | nil =>
      rw [hl] at hpath
      exact hpath
  | cons a l' =>
      rw [hl] at hpath
      exact hpath.1

omit [DecidableEq ε] in
/-- The head of a list without a successor is the only event of it. -/
theorem Lists.eq_singleton_iff (h : g.Lists l) :
    g.events i = some ev ∧ g.nextObject ev = none ↔ l i = [ev] := by
  have hpath := h.path i
  constructor
  · rintro ⟨hhead, hnext⟩
    rw [hhead] at hpath
    have hsingle : Path some g.nextObject (some ev) [ev] none := ⟨rfl, hnext⟩
    exact hpath.unique hsingle
  · intro hl
    rw [hl] at hpath
    exact ⟨hpath.1, hpath.2⟩

omit [DecidableEq ε] in
/-- A loop meets the events in their order. -/
theorem foldEvents_eq {β : Type*} {next : ε → Option ε} {f : β → ε → β} {p : Option ε} {l : List ε}
    {fuel : ℕ} (h : Path some next p l none) (hfuel : l.length ≤ fuel) (b : β) :
    foldEvents next f fuel p b = l.foldl f b := by
  induction l generalizing p fuel b with
  | nil =>
      obtain rfl : p = none := h
      cases fuel with
      | zero => rfl
      | succ fuel => rfl
  | cons ev l ih =>
      obtain ⟨fuel, rfl⟩ := Nat.exists_eq_add_of_le' (Nat.one_le_of_lt hfuel)
      obtain ⟨rfl, hrest⟩ := h
      exact ih hrest (Nat.le_of_succ_le_succ hfuel) (f b ev)

/-- A new event at the head of a list. -/
theorem Lists.link (h : g.Lists l) (hev : ∀ j, ev ∉ l j) :
    (g.link i ev).Lists (Function.update l i (ev :: l i)) := by
  constructor
  · intro j
    by_cases hj : j = i
    · subst hj
      simp only [SignalEvents.link, Function.update_self]
      exact ⟨rfl, by simpa [hev] using h.path j⟩
    · simp only [SignalEvents.link, Function.update_of_ne hj]
      exact (path_update_of_notMem (hev j)).mpr (h.path j)
  · intro j k hne
    by_cases hj : j = i
    · subst hj
      rw [Function.update_self, Function.update_of_ne hne.symm, List.disjoint_cons_left]
      exact ⟨hev k, h.disjoint j k hne⟩
    · by_cases hk : k = i
      · subst hk
        rw [Function.update_self, Function.update_of_ne hj, List.disjoint_cons_right]
        exact ⟨hev j, h.disjoint j k hne⟩
      · rw [Function.update_of_ne hj, Function.update_of_ne hk]
        exact h.disjoint j k hne

/-- The loop of `signal_del` finds the event before one that is not the head. -/
theorem findBefore_eq {next : ε → Option ε} {p : Option ε} {l₁ l₂ : List ε} {a : ε} {fuel : ℕ}
    (h : Path some next p (l₁ ++ a :: ev :: l₂) none) (hfuel : l₁.length < fuel) :
    findBefore next ev fuel p = some a := by
  have hnodup := h.nodup
  induction l₁ generalizing p fuel with
  | nil =>
      obtain ⟨fuel, rfl⟩ := Nat.exists_eq_add_of_lt hfuel
      obtain ⟨rfl, hnext, -⟩ := h
      exact if_neg (not_not.mpr hnext)
  | cons b l₁ ih =>
      obtain ⟨fuel, rfl⟩ := Nat.exists_eq_add_of_lt hfuel
      obtain ⟨rfl, hrest⟩ := h
      have hne : next b ≠ some ev := by
        have hdup := (List.nodup_cons.mp hnodup).2
        cases l₁ with
        | nil =>
            rw [hrest.1]
            rintro heq
            obtain rfl := Option.some.inj heq
            simp at hdup
        | cons c l₁ =>
            rw [hrest.1]
            rintro heq
            obtain rfl := Option.some.inj heq
            simp at hdup
      exact (if_pos hne).trans (ih hrest (by simp only [List.length_cons]; omega)
        (List.nodup_cons.mp hnodup).2)

/-- The links of a list after an inner event has been taken out. -/
theorem path_skip {next : ε → Option ε} {p : Option ε} {l₁ l₂ : List ε} {a : ε}
    (h : Path some next p (l₁ ++ a :: ev :: l₂) none) :
    Path some (Function.update next a (next ev)) p (l₁ ++ a :: l₂) none := by
  have hnodup := List.nodup_append'.mp h.nodup
  have ha₁ : a ∉ l₁ := fun hmem => hnodup.2.2 hmem List.mem_cons_self
  have ha₂ : a ∉ l₂ := fun hmem => (List.nodup_cons.mp hnodup.2.1).1 (List.mem_cons_of_mem _ hmem)
  obtain ⟨q, hfirst, hq, hev, hrest⟩ := path_append.mp h
  refine path_append.mpr ⟨q, (path_update_of_notMem ha₁).mpr hfirst, hq, ?_⟩
  rw [Function.update_self]
  exact (path_update_of_notMem ha₂).mpr hrest

/-- An event is taken out of its list; the loop ends. -/
theorem Lists.exists_unlink (h : g.Lists l) (hev : ev ∈ l i) {fuel : ℕ}
    (hfuel : (l i).length ≤ fuel) :
    ∃ g', g.unlink fuel i ev = some g' ∧ g'.Lists (Function.update l i ((l i).erase ev)) := by
  have hdisjoint : ∀ j k, j ≠ k → (Function.update l i ((l i).erase ev) j).Disjoint
      (Function.update l i ((l i).erase ev) k) := by
    have hsub : ∀ j, Function.update l i ((l i).erase ev) j ⊆ l j := by
      intro j
      by_cases hj : j = i
      · subst hj
        rw [Function.update_self]
        exact List.erase_subset
      · rw [Function.update_of_ne hj]
        exact List.Subset.refl _
    intro j k hne x hx hx'
    exact h.disjoint j k hne (hsub j hx) (hsub k hx')
  obtain ⟨l₁, l₂, hl⟩ := List.append_of_mem hev
  have hpath := h.path i
  rw [hl] at hpath
  rcases List.eq_nil_or_concat l₁ with rfl | ⟨l₁, a, rfl⟩
  · refine ⟨_, if_pos hpath.1, fun j => ?_, hdisjoint⟩
    by_cases hj : j = i
    · subst hj
      simp only [Function.update_self]
      rw [hl, List.nil_append, List.erase_cons_head]
      exact hpath.2
    · simp only [Function.update_of_ne hj]
      exact h.path j
  · rw [List.concat_eq_append] at hl hpath
    have hnodup := hl ▸ h.nodup i
    have hnot : ev ∉ l₁ ++ [a] := fun hmem =>
      (List.nodup_append'.mp hnodup).2.2 hmem List.mem_cons_self
    have herase : (l i).erase ev = l₁ ++ a :: l₂ := by
      rw [hl, List.erase_append_right _ hnot, List.erase_cons_head, List.append_assoc]
      rfl
    have hhead : g.events i ≠ some ev := by
      rw [h.head_eq i, hl]
      intro heq
      refine hnot ?_
      cases l₁ with
      | nil => exact List.mem_singleton.mpr (Option.some.inj heq).symm
      | cons b l₁ =>
          rw [← Option.some.inj heq]
          exact List.mem_cons_self
    rw [List.append_assoc] at hpath hl
    have hlt : l₁.length < fuel := by
      rw [hl, List.length_append] at hfuel
      simp only [List.cons_append, List.length_cons] at hfuel
      omega
    refine ⟨_, (if_neg hhead).trans (by rw [findBefore_eq hpath hlt]; rfl), fun j => ?_, hdisjoint⟩
    by_cases hj : j = i
    · subst hj
      rw [Function.update_self, herase]
      exact path_skip hpath
    · rw [Function.update_of_ne hj]
      have haj : a ∉ l j := fun hmem =>
        h.disjoint j i hj hmem (by rw [hl]; simp)
      exact (path_update_of_notMem haj).mpr (h.path j)

end SignalEvents

end LuaSys.Event
