import Mathlib

/-!
# Three relations on `Except` computations

A routine written in the `Except` monad is checked against three kinds of
specification in this development, and all are about where such a routine
may leave its normal path:

- `Except.SuccLe a b` (*`a` succeeds wherever `b` does*): if `b` returns `v`,
  then so does `a`. It is the order in which adding a guard makes a program
  *stronger*: a routine that only adds failure paths to another one is above it.
  A soft-fork argument ("every restriction only adds failures") is a proof that
  one run is `SuccLe` another, assembled through `bind` from the primitives.
- `Except.ErrorsIn P m`: every error `m` can raise satisfies `P`. It is the
  form of an absence-of-runtime-error statement, when the error type mixes the
  program's expected failures with the ones that must never happen.

- `Except.Returns e c m Q`: `m` returns a value satisfying `Q`, or raises the
  one fault `e`, and raises it only where the bounds `c` fail. It is the form
  of "the exact result, unless a machine operation on the way overflows": one
  proof gives both what a run returns when it returns, for every input, and
  that it does return, within the bounds.

All three are closed under `pure`, `bind` and branching, which is what lets a proof
follow the program's own structure step by step. The closure lemmas of
`SuccLe` are `gcongr` lemmas: on two runs of one program that differ only in
what some of its calls return, `gcongr` walks the program and leaves exactly
those calls to prove.
-/

namespace Except

universe u v w

variable {ε : Type u} {α β : Type v}

/-! ## Evaluation -/

@[simp] theorem ok_bind (a : α) (f : α → Except ε β) : (Except.ok a >>= f) = f a := rfl

@[simp] theorem error_bind (e : ε) (f : α → Except ε β) : (Except.error e >>= f) = .error e :=
  rfl

@[simp] theorem pure_eq_ok {a b : α} : (pure a : Except ε α) = .ok b ↔ a = b := by
  constructor
  · intro h
    cases h
    rfl
  · intro h
    rw [h]
    rfl

/-- A `bind` succeeds when both of its parts do. -/
theorem bind_eq_ok {x : Except ε α} {f : α → Except ε β} {b : β} :
    (x >>= f) = .ok b ↔ ∃ a, x = .ok a ∧ f a = .ok b := by
  cases x with
  | error e => simp
  | ok a => simp

/-- `mapError` changes the errors only. -/
theorem mapError_eq_ok {ε' : Type u} {f : ε → ε'} {x : Except ε α} {a : α} :
    x.mapError f = .ok a ↔ x = .ok a := by
  cases x with
  | error e => exact ⟨fun h => (nomatch h), fun h => (nomatch h)⟩
  | ok v =>
    show (Except.ok v : Except ε' α) = .ok a ↔ (Except.ok v : Except ε α) = .ok a
    rw [Except.ok.injEq, Except.ok.injEq]

/-- A guard `if p then throw e` in a `do` block that succeeds was passed. -/
theorem ite_throw_bind_eq_ok {p : Prop} [Decidable p] {e : ε} {k : β → Except ε α}
    {x : Except ε α} {r : α} (h : (if p then throw e >>= k else x) = .ok r) : ¬p ∧ x = .ok r := by
  by_cases hp : p
  · rw [if_pos hp] at h
    exact (nomatch h)
  · rw [if_neg hp] at h
    exact ⟨hp, h⟩

theorem ite_throw_bind_eq_ok_iff {p : Prop} [Decidable p] {e : ε} {k : β → Except ε α}
    {x : Except ε α} {r : α} : (if p then throw e >>= k else x) = .ok r ↔ ¬p ∧ x = .ok r := by
  by_cases hp : p
  · rw [if_pos hp]
    exact ⟨fun h => (nomatch h), fun h => absurd hp h.1⟩
  · rw [if_neg hp]
    exact ⟨fun h => ⟨hp, h⟩, fun h => h.2⟩

/-- A loop of checks succeeds when every check does. -/
theorem forM_eq_ok {γ : Type v} {f : γ → Except ε PUnit} :
    ∀ l : List γ, l.forM f = .ok () ↔ ∀ x ∈ l, f x = .ok ()
  | [] => by
    rw [List.forM_eq_forM, List.forM_nil]
    exact ⟨fun _ x hx => absurd hx List.not_mem_nil, fun _ => rfl⟩
  | x :: l => by
    rw [List.forM_eq_forM, List.forM_cons, ← List.forM_eq_forM, bind_eq_ok,
      List.forall_mem_cons, ← forM_eq_ok l]
    constructor
    · rintro ⟨⟨⟩, hx, hl⟩
      exact ⟨hx, hl⟩
    · rintro ⟨hx, hl⟩
      exact ⟨(), hx, hl⟩

/-- An invariant of every state a successful fold goes through: it holds of
the result when it holds initially and each successful step over an element of
the list keeps it. -/
theorem foldlM_inv {γ : Type w} {f : α → γ → Except ε α} (I : α → Prop) :
    ∀ (l : List γ), (∀ s x s', x ∈ l → I s → f s x = .ok s' → I s') →
      ∀ (s r : α), I s → l.foldlM f s = .ok r → I r
  | [], _, s, r, hs, h => by
    simp only [List.foldlM_nil, pure_eq_ok] at h
    exact h ▸ hs
  | x :: l, hstep, s, r, hs, h => by
    simp only [List.foldlM_cons, bind_eq_ok] at h
    obtain ⟨s', hx, hl⟩ := h
    have hs' : I s' := hstep s x s' List.mem_cons_self hs hx
    exact foldlM_inv I l (fun s y s' hy => hstep s y s' (List.mem_cons_of_mem x hy)) s' r hs' hl

/-- A fold whose every step keeps `I` and, when it returns, establishes `Q`
of its element: when the fold returns, `I` holds and `Q` holds of every
element. -/
theorem foldlM_inv_forall {γ : Type w} {f : α → γ → Except ε α} (I : α → Prop) (Q : γ → Prop) :
    ∀ (l : List γ), (∀ s x s', x ∈ l → I s → f s x = .ok s' → I s' ∧ Q x) →
      ∀ (s r : α), I s → l.foldlM f s = .ok r → I r ∧ ∀ x ∈ l, Q x
  | [], _, s, r, hs, h => by
    simp only [List.foldlM_nil, pure_eq_ok] at h
    exact ⟨h ▸ hs, fun _ hx => absurd hx List.not_mem_nil⟩
  | x :: l, hstep, s, r, hs, h => by
    simp only [List.foldlM_cons, bind_eq_ok] at h
    obtain ⟨s', hx, hl⟩ := h
    obtain ⟨hs', hQx⟩ := hstep s x s' List.mem_cons_self hs hx
    obtain ⟨hr, hQ⟩ := foldlM_inv_forall I Q l (fun s y s' hy => hstep s y s' (List.mem_cons_of_mem x hy))
      s' r hs' hl
    exact ⟨hr, fun y hy => (List.mem_cons.mp hy).elim (fun h => h ▸ hQx) (hQ y)⟩

/-! ## Success refinement -/

/-- `a` succeeds, with the same value, wherever `b` succeeds. -/
def SuccLe (a b : Except ε α) : Prop :=
  ∀ v, b = .ok v → a = .ok v

namespace SuccLe

@[refl] theorem refl (a : Except ε α) : SuccLe a a := fun _ h => h

theorem trans {a b c : Except ε α} (hab : SuccLe a b) (hbc : SuccLe b c) :
    SuccLe a c := fun v h => hab v (hbc v h)

/-- Every computation refines one that has already failed. -/
theorem of_error (a : Except ε α) (e : ε) : SuccLe a (.error e) := by
  intro v h
  cases h

@[gcongr] theorem bind {a b : Except ε α} {f g : α → Except ε β} (hab : SuccLe a b)
    (hfg : ∀ v, SuccLe (f v) (g v)) : SuccLe (a >>= f) (b >>= g) := by
  intro w h
  cases hb : b with
  | error e =>
    rw [hb] at h
    cases h
  | ok v =>
    have ha : a = .ok v := hab v hb
    rw [hb] at h
    rw [ha]
    exact hfg v w h

/-- The same continuation after two related computations. -/
theorem bind_left {a b : Except ε α} {f : α → Except ε β} (hab : SuccLe a b) :
    SuccLe (a >>= f) (b >>= f) :=
  bind hab fun v => refl (f v)

/-- Two related continuations after the same computation. -/
theorem bind_right (a : Except ε α) {f g : α → Except ε β}
    (hfg : ∀ v, SuccLe (f v) (g v)) : SuccLe (a >>= f) (a >>= g) :=
  bind (refl a) hfg

/-- A guard that fails less often on the left: `p → q`. -/
theorem guard {p q : Prop} [Decidable p] [Decidable q] (hpq : p → q)
    {e e' : ε} {a b : Except ε α} (hab : SuccLe a b) :
    SuccLe (if p then .error e else a) (if q then .error e' else b) := by
  by_cases hq : q
  · rw [if_pos hq]
    exact of_error _ _
  · have hp : ¬ p := fun hp => hq (hpq hp)
    rw [if_neg hp, if_neg hq]
    exact hab

/-- A branch on a condition that both sides read the same way. -/
theorem ite {p : Prop} [Decidable p] {a b a' b' : Except ε α}
    (h₁ : p → SuccLe a a') (h₂ : ¬ p → SuccLe b b') :
    SuccLe (if p then a else b) (if p then a' else b') := by
  by_cases hp : p
  · rw [if_pos hp, if_pos hp]
    exact h₁ hp
  · rw [if_neg hp, if_neg hp]
    exact h₂ hp

/-- An early successful exit, `if p then return`, that the left side takes
whenever the right side does. -/
theorem ite_pure_unit {p q : Prop} [Decidable p] [Decidable q] (hqp : q → p)
    {a b : Except ε Unit} (hab : SuccLe a b) :
    SuccLe (if p then Pure.pure () else a) (if q then Pure.pure () else b) := by
  by_cases hp : p
  · rw [if_pos hp]
    intro u _
    rfl
  · have hq : ¬ q := fun hq => hp (hqp hq)
    rw [if_neg hp, if_neg hq]
    exact hab

@[gcongr] theorem ite_ite {p : Prop} [Decidable p] {a b a' b' : Except ε α}
    (h₁ : SuccLe a a') (h₂ : SuccLe b b') :
    SuccLe (if p then a else b) (if p then a' else b') :=
  ite (fun _ => h₁) (fun _ => h₂)

@[gcongr] theorem dite_dite {p : Prop} [Decidable p] {a a' : p → Except ε α}
    {b b' : ¬ p → Except ε α} (h₁ : ∀ h, SuccLe (a h) (a' h)) (h₂ : ∀ h, SuccLe (b h) (b' h)) :
    SuccLe (if h : p then a h else b h) (if h : p then a' h else b' h) := by
  by_cases hp : p
  · rw [dif_pos hp, dif_pos hp]
    exact h₁ hp
  · rw [dif_neg hp, dif_neg hp]
    exact h₂ hp

@[gcongr] theorem map {a b : Except ε α} (f : α → β) (hab : SuccLe a b) :
    SuccLe (f <$> a) (f <$> b) := by
  intro w h
  cases hb : b with
  | error e =>
    rw [hb] at h
    cases h
  | ok v =>
    rw [hb] at h
    rw [hab v hb]
    exact h

/-- A fold whose step succeeds wherever the other fold's step does. -/
@[gcongr] theorem foldlM {γ : Type w} {f g : α → γ → Except ε α} (l : List γ)
    (hfg : ∀ s x, SuccLe (f s x) (g s x)) (s : α) :
    SuccLe (l.foldlM f s) (l.foldlM g s) := by
  induction l generalizing s with
  | nil => exact refl _
  | cons x xs ih =>
    simp only [List.foldlM_cons]
    exact bind (hfg s x) ih

end SuccLe

/-! ## Error containment -/

/-- Every error that `m` can raise satisfies `P`. -/
def ErrorsIn (P : ε → Prop) (m : Except ε α) : Prop :=
  ∀ e, m = .error e → P e

namespace ErrorsIn

variable {P : ε → Prop}

theorem ok (v : α) : ErrorsIn P (.ok v : Except ε α) := by
  intro e h
  cases h

theorem pure (v : α) : ErrorsIn P (Pure.pure v : Except ε α) := ok v

theorem error {e : ε} (h : P e) : ErrorsIn P (.error e : Except ε α) := by
  intro e' he
  cases he
  exact h

theorem bind {m : Except ε α} {f : α → Except ε β} (hm : ErrorsIn P m)
    (hf : ∀ v, m = .ok v → ErrorsIn P (f v)) : ErrorsIn P (m >>= f) := by
  intro e h
  cases hmv : m with
  | error e' =>
    rw [hmv] at h hm
    cases h
    exact hm e rfl
  | ok v =>
    rw [hmv] at h
    exact hf v hmv e h

theorem map (f : α → β) {m : Except ε α} (hm : ErrorsIn P m) : ErrorsIn P (f <$> m) := by
  intro e h
  cases hmv : m with
  | error e' =>
    rw [hmv] at h hm
    cases h
    exact hm e rfl
  | ok v =>
    rw [hmv] at h
    cases h

theorem ite {p : Prop} [Decidable p] {a b : Except ε α}
    (h₁ : p → ErrorsIn P a) (h₂ : ¬ p → ErrorsIn P b) :
    ErrorsIn P (if p then a else b) := by
  by_cases hp : p
  · rw [if_pos hp]
    exact h₁ hp
  · rw [if_neg hp]
    exact h₂ hp

theorem mono {Q : ε → Prop} (hPQ : ∀ e, P e → Q e) {m : Except ε α}
    (hm : ErrorsIn P m) : ErrorsIn Q m :=
  fun e h => hPQ e (hm e h)

theorem mapError {ε' : Type u} {Q : ε' → Prop} {f : ε → ε'} {m : Except ε α}
    (hm : ErrorsIn P m) (hf : ∀ e, P e → Q (f e)) : ErrorsIn Q (m.mapError f) := by
  intro e h
  cases hmv : m with
  | error e' =>
    rw [hmv] at h hm
    cases h
    exact hf e' (hm e' rfl)
  | ok v =>
    rw [hmv] at h
    cases h

/-- Errors that `f` maps into `Q`, whatever they were. -/
theorem mapError_of {ε' : Type u} {Q : ε' → Prop} {f : ε → ε'} (m : Except ε α)
    (hf : ∀ e, Q (f e)) : ErrorsIn Q (m.mapError f) :=
  mapError (P := fun _ => True) (fun _ _ => trivial) fun e _ => hf e

/-- A `throw` that the rest of a `do` block follows raises only its error. -/
theorem throw_bind {e : ε} {k : β → Except ε α} (he : P e) : ErrorsIn P (throw e >>= k) :=
  error he

/-- A guard `if p then throw e` in a `do` block raises `e` or what follows. -/
theorem ite_throw {p : Prop} [Decidable p] {e : ε} {k : β → Except ε α} {x : Except ε α}
    (he : P e) (hx : ErrorsIn P x) : ErrorsIn P (if p then throw e >>= k else x) :=
  ite (fun _ => error he) fun _ => hx

/-- A loop of checks each of which raises only errors in `P`. -/
theorem forM {γ : Type v} {f : γ → Except ε PUnit} :
    ∀ l : List γ, (∀ x ∈ l, ErrorsIn P (f x)) → ErrorsIn P (l.forM f)
  | [], _ => by
    rw [List.forM_eq_forM, List.forM_nil]
    exact pure _
  | x :: l, hf => by
    rw [List.forM_eq_forM, List.forM_cons, ← List.forM_eq_forM]
    exact bind (hf x List.mem_cons_self) fun _ _ =>
      forM l fun y hy => hf y (List.mem_cons_of_mem x hy)

/-- A fold that, from every state with the invariant `I`, raises only errors in
`P` and keeps `I` when it succeeds. -/
theorem foldlM_inv {γ : Type w} {f : α → γ → Except ε α} (I : α → Prop) :
    ∀ (l : List γ), (∀ s, ∀ x ∈ l, I s → ErrorsIn P (f s x) ∧ ∀ s', f s x = .ok s' → I s') →
      ∀ s, I s → ErrorsIn P (l.foldlM f s)
  | [], _, s, _ => pure s
  | x :: l, hf, s, hs => by
    rw [List.foldlM_cons]
    obtain ⟨hx, hkeep⟩ := hf s x List.mem_cons_self hs
    exact bind hx fun s' hs' =>
      foldlM_inv I l (fun t y hy => hf t y (List.mem_cons_of_mem x hy)) s' (hkeep s' hs')

/-- A fold whose every step, on an element of the list, raises only errors in
`P`. -/
theorem foldlM {γ : Type w} {f : α → γ → Except ε α} (l : List γ)
    (hf : ∀ s, ∀ x ∈ l, ErrorsIn P (f s x)) (s : α) : ErrorsIn P (l.foldlM f s) := by
  induction l generalizing s with
  | nil => exact pure s
  | cons x xs ih =>
    simp only [List.foldlM_cons]
    refine bind (hf s x List.mem_cons_self) fun v _ => ?_
    exact ih (fun s y hy => hf s y (List.mem_cons_of_mem x hy)) v

end ErrorsIn

/-! ## Results up to one fault -/

/-- `m` returns a value satisfying `Q`, or raises `e`, which it only does when
`c` fails. -/
def Returns (e : ε) (c : Prop) (m : Except ε α) (Q : α → Prop) : Prop :=
  (∃ a, m = .ok a ∧ Q a) ∨ (m = .error e ∧ ¬c)

namespace Returns

variable {e : ε} {c : Prop} {Q R : α → Prop}

theorem of_eq_ok {m : Except ε α} {a : α} (hm : m = .ok a) (ha : Q a) : Returns e c m Q :=
  .inl ⟨a, hm, ha⟩

theorem pure {a : α} (ha : Q a) : Returns e c (Pure.pure a) Q := of_eq_ok rfl ha

/-- The fault itself, raised where the bounds fail. -/
theorem error_of_not (hc : ¬c) : Returns e c (.error e : Except ε α) Q := .inr ⟨rfl, hc⟩

/-- A `bind` returns what its continuation does on every value its first part
may return. -/
theorem bind {m : Except ε α} {f : α → Except ε β} {R : β → Prop} (hm : Returns e c m Q)
    (hf : ∀ a, Q a → Returns e c (f a) R) : Returns e c (m >>= f) R := by
  rcases hm with ⟨a, rfl, ha⟩ | ⟨rfl, hc⟩
  · exact hf a ha
  · exact .inr ⟨rfl, hc⟩

theorem conseq {m : Except ε α} (hm : Returns e c m Q) (hQR : ∀ a, Q a → R a) :
    Returns e c m R := by
  rcases hm with ⟨a, hma, ha⟩ | hfault
  · exact .inl ⟨a, hma, hQR a ha⟩
  · exact .inr hfault

/-- Weaker bounds: a fault outside `d` is a fault outside `c` when `d → c`. -/
theorem weaken {d : Prop} {m : Except ε α} (hm : Returns e c m Q) (hdc : d → c) :
    Returns e d m Q := by
  rcases hm with hok | ⟨hme, hc⟩
  · exact .inl hok
  · exact .inr ⟨hme, fun hd => hc (hdc hd)⟩

theorem ite {p : Prop} [Decidable p] {a b : Except ε α} (h₁ : p → Returns e c a Q)
    (h₂ : ¬p → Returns e c b Q) : Returns e c (if p then a else b) Q := by
  by_cases hp : p
  · rw [if_pos hp]
    exact h₁ hp
  · rw [if_neg hp]
    exact h₂ hp

/-- What a run that returns has returned. -/
theorem post {m : Except ε α} {a : α} (hm : Returns e c m Q) (h : m = .ok a) : Q a := by
  rcases hm with ⟨b, hmb, hb⟩ | ⟨hme, -⟩
  · rw [h] at hmb
    cases hmb
    exact hb
  · rw [h] at hme
    cases hme

/-- Within the bounds the run returns. -/
theorem exists_ok {m : Except ε α} (hm : Returns e c m Q) (hc : c) : ∃ a, m = .ok a ∧ Q a := by
  rcases hm with hok | ⟨-, hnc⟩
  · exact hok
  · exact absurd hc hnc

/-- The only error the run can raise is the fault. -/
theorem errorsIn {m : Except ε α} (hm : Returns e c m Q) : ErrorsIn (· = e) m := by
  intro e' h
  rcases hm with ⟨a, hma, -⟩ | ⟨hme, -⟩
  · rw [h] at hma
    cases hma
  · rw [h] at hme
    cases hme
    rfl

end Returns

end Except
