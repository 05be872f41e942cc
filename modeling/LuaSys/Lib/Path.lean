import Mathlib.Data.List.Nodup
import Mathlib.Data.Option.Basic
import Mathlib.Logic.Function.Basic
import Mathlib.Tactic.Common

/-!
# Linked paths

A linked structure is a `next` field, given as a function from nodes to pointers.
`Path ptr next p l q` says that the nodes met from the pointer `p` are those of
`l`, in this order, and that the last of them points to `q`.  The embedding `ptr`
of nodes into pointers is a parameter: it is `some` for lists that end in a null
pointer and `id` for rings of indices.

A field update is `Function.update`, so the effect of an assignment on a path is a
rewrite.

## Main definitions

* `Path ptr next p l q` — the nodes from `p` up to `q`.
-/

namespace LuaSys.Lib

variable {α β : Type*}

/-- The nodes met from the pointer `p`, following `next`, are those of `l`, and
the pointer after the last of them is `q`. -/
def Path (ptr next : α → β) : β → List α → β → Prop
  | p, [], q => p = q
  | p, a :: l, q => p = ptr a ∧ Path ptr next (next a) l q

section
variable {ptr next : α → β} {p q r : β} {a b : α} {l l₁ l₂ : List α}

@[simp] theorem path_nil : Path ptr next p [] q ↔ p = q := Iff.rfl

@[simp] theorem path_cons :
    Path ptr next p (a :: l) q ↔ p = ptr a ∧ Path ptr next (next a) l q := Iff.rfl

theorem path_append :
    Path ptr next p (l₁ ++ l₂) q ↔ ∃ r, Path ptr next p l₁ r ∧ Path ptr next r l₂ q := by
  induction l₁ generalizing p with
  | nil => simp
  | cons a l ih => simp [ih, and_assoc]

theorem path_concat :
    Path ptr next p (l ++ [a]) q ↔ Path ptr next p l (ptr a) ∧ next a = q := by
  rw [path_append]
  constructor
  · rintro ⟨r, hl, rfl, hq⟩
    exact ⟨hl, hq⟩
  · rintro ⟨hl, hq⟩
    exact ⟨ptr a, hl, rfl, hq⟩

/-- A path depends on the links of its own nodes only. -/
theorem path_congr {next' : α → β} (h : ∀ a ∈ l, next a = next' a) :
    Path ptr next p l q ↔ Path ptr next' p l q := by
  induction l generalizing p with
  | nil => simp
  | cons a l ih =>
      rw [path_cons, path_cons, h a (by simp), ih fun b hb => h b (by simp [hb])]

/-- The end of a path is determined by its start and its nodes. -/
theorem Path.end_unique (h₁ : Path ptr next p l q) (h₂ : Path ptr next p l r) : q = r := by
  induction l generalizing p with
  | nil => exact h₁.symm.trans h₂
  | cons a l ih => exact ih h₁.2 h₂.2

/-- The nodes of a path are determined by its start and its end. -/
theorem Path.nodes_unique (hptr : ptr.Injective) (h₁ : Path ptr next p l₁ q)
    (h₂ : Path ptr next p l₂ q) (hq₁ : ∀ a ∈ l₁, ptr a ≠ q) (hq₂ : ∀ a ∈ l₂, ptr a ≠ q) : l₁ = l₂ := by
  induction l₁ generalizing p l₂ with
  | nil =>
      cases l₂ with
      | nil => rfl
      | cons b l₂ => exact absurd (h₂.1.symm.trans h₁) (hq₂ b List.mem_cons_self)
  | cons a l₁ ih =>
      cases l₂ with
      | nil => exact absurd (h₁.1.symm.trans h₂) (hq₁ a List.mem_cons_self)
      | cons b l₂ =>
          obtain rfl : a = b := hptr (h₁.1.symm.trans h₂.1)
          congr 1
          exact ih h₁.2 h₂.2 (fun c hc => hq₁ c (List.mem_cons_of_mem a hc))
            fun c hc => hq₂ c (List.mem_cons_of_mem a hc)

section update
variable [DecidableEq α]

/-- Assigning the link of a node outside the path does not change it. -/
@[simp] theorem path_update_of_notMem (h : a ∉ l) :
    Path ptr (Function.update next a r) p l q ↔ Path ptr next p l q := by
  refine path_congr fun b hb => ?_
  rw [Function.update_of_ne]
  rintro rfl
  exact h hb

end update
end

/-! ## Paths that end outside the nodes -/

section terminal
variable {ptr next : α → β} {p q r : β} {a b : α} {l l' : List α}

/-- The nodes of a path to a pointer that is no node are determined by its start. -/
theorem Path.unique_of (hptr : Function.Injective ptr) (hq : ∀ a, ptr a ≠ q)
    (h : Path ptr next p l q) (h' : Path ptr next p l' q) : l = l' := by
  induction l generalizing p l' with
  | nil =>
      cases l' with
      | nil => rfl
      | cons b l' => exact absurd (h'.1.symm.trans h) (hq b)
  | cons a l ih =>
      cases l' with
      | nil => exact absurd (h.1.symm.trans h') (hq a)
      | cons b l' =>
          have hab : a = b := hptr (h.1.symm.trans h'.1)
          subst hab
          rw [ih h.2 h'.2]

/-- Such a path visits no node twice. -/
theorem Path.nodup_of (hptr : Function.Injective ptr) (hq : ∀ a, ptr a ≠ q)
    (h : Path ptr next p l q) : l.Nodup := by
  induction l generalizing p with
  | nil => exact List.nodup_nil
  | cons a l ih =>
      refine List.nodup_cons.mpr ⟨fun ha => ?_, ih h.2⟩
      obtain ⟨l₁, l₂, rfl⟩ := List.append_of_mem ha
      -- From `a` the list is both `l₁ ++ a :: l₂` and its own tail `l₂`.
      obtain ⟨r, -, h₂⟩ := path_append.mp h.2
      have := Path.unique_of hptr hq h.2 h₂.2
      have hlen := congrArg List.length this
      simp only [List.length_append, List.length_cons] at hlen
      omega

/-- A path that closes up, or ends elsewhere, does not lead to `q`. -/
theorem Path.not_of_cycle (hptr : Function.Injective ptr) (hq : ∀ a, ptr a ≠ q)
    (h : Path ptr next p l r) (hr : r ≠ q) (hcycle : ∀ b, r = ptr b → b ∈ l) :
    ¬Path ptr next p l' q := by
  intro h'
  -- The nodes of `l'` start with those of `l`, as long as both go on.
  have hsplit : ∃ l₂, l' = l ++ l₂ := by
    clear hcycle
    induction l generalizing p l' with
    | nil => exact ⟨l', rfl⟩
    | cons b l ih =>
        cases l' with
        | nil => exact absurd (h.1.symm.trans h') (hq b)
        | cons c l' =>
            obtain rfl := hptr (h.1.symm.trans h'.1)
            obtain ⟨l₂, rfl⟩ := ih h.2 h'.2
            exact ⟨l₂, rfl⟩
  obtain ⟨l₂, rfl⟩ := hsplit
  obtain ⟨r', h₁, h₂⟩ := path_append.mp h'
  obtain rfl := h.end_unique h₁
  have hnodup := List.nodup_append'.mp (Path.nodup_of hptr hq h')
  cases l₂ with
  | nil => exact hr h₂
  | cons b l₂ => exact hnodup.2.2 (hcycle b h₂.1) List.mem_cons_self

/-- What a path meets behind its start lies on it, if it closes up or ends. -/
theorem Path.mem_of_reach (hptr : Function.Injective ptr) (h : Path ptr next p l r)
    (hcycle : ∀ b, r = ptr b → b ∈ l) (h' : Path ptr next p l' (ptr a)) : a ∈ l := by
  have hstart : ∀ b, p = ptr b → b ∈ l := by
    intro b hb
    cases l with
    | nil => exact hcycle b (h.symm.trans hb)
    | cons c l => exact hptr (hb.symm.trans h.1) ▸ List.mem_cons_self
  have hclosed : ∀ b ∈ l, ∀ c, next b = ptr c → c ∈ l := by
    intro b hb c hc
    obtain ⟨l₁, l₂, rfl⟩ := List.append_of_mem hb
    obtain ⟨-, -, -, h₂⟩ := path_append.mp h
    cases l₂ with
    | nil => exact hcycle c (h₂.symm.trans hc)
    | cons d l₂ => simp [hptr (hc.symm.trans h₂.1)]
  clear h
  induction l' generalizing p with
  | nil => exact hstart a h'
  | cons b l' ih => exact ih h'.2 fun c hc => hclosed b (hstart b h'.1) c hc

end terminal

/-! ## Lists that end in a null pointer -/

section null
variable {next : α → Option α} {p : Option α} {l l' : List α}

/-- The nodes of a list are determined by its head. -/
theorem Path.unique (h : Path some next p l none) (h' : Path some next p l' none) : l = l' :=
  Path.unique_of (Option.some_injective α) Option.some_ne_none h h'

/-- A list that ends in a null pointer visits no node twice. -/
theorem Path.nodup (h : Path some next p l none) : l.Nodup :=
  Path.nodup_of (Option.some_injective α) Option.some_ne_none h

/-- A list begins with the node that its head points to. -/
theorem Path.eq_cons {a : α} (h : Path some next p l none) (hp : p = some a) :
    ∃ l', l = a :: l' := by
  cases l with
  | nil => exact absurd (hp.symm.trans h) (Option.some_ne_none a)
  | cons b l' => exact ⟨l', by rw [Option.some.inj (hp.symm.trans h.1)]⟩

/-- No list goes through a node that points to itself. -/
theorem Path.not_self {a : α} (hself : next a = some a) : ¬Path some next (some a) l none := by
  have hcycle : Path some next (some a) [a] (some a) := ⟨rfl, hself⟩
  refine hcycle.not_of_cycle (Option.some_injective α) Option.some_ne_none (Option.some_ne_none a)
    fun b hb => ?_
  exact List.mem_singleton.mpr (Option.some.inj hb).symm

end null

end LuaSys.Lib
