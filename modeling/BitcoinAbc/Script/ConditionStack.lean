import Mathlib
import BitcoinAbc.Script.Machine
import BitcoinAbc.Lib.Simulation

/-!
# `ConditionStack` refines a `std::vector<bool>` (script/interpreter.cpp)

`EvalScript` keeps one boolean per open `OP_IF`: `OP_IF`/`OP_NOTIF` push one
(`push_back`), `OP_ELSE` negates the top one (`toggle_top`) and `OP_ENDIF` pops
it (`pop_back`), and an opcode executes when all of them are true
(`all_true`). The source replaced the vector by `ConditionStack`, which keeps
only the size and the position of the first false value; a toggle below the
first false value is dropped.

The plain vector is the abstract machine (`Plain.apply`), and
`ConditionStack.ofList v` is the `ConditionStack` that stands for the vector
`v`. Each operation commutes with that encoding (`stepEncodes`), so a whole
run of operations does (`run_refines_vector`, by `Simulation.run_encodes`), and
the answers `(empty(), all_true())` agree after every operation
(`observe_ofList`). The hypotheses are those of the plain vector's operations:
`pop_back` and `toggle_top` only on a non-empty stack, `push_back` only below
`2^32 - 1` entries, so that the size never reaches `NO_FALSE`.
-/

namespace BitcoinAbc

namespace Script

namespace ConditionStack

/-- The operations `EvalScript` makes on its condition stack. -/
inductive Op where
  | push_back (f : Bool)
  | pop_back
  | toggle_top
  deriving DecidableEq, Repr

/-- What the interpreter reads of a condition stack: `(empty(), all_true())`. -/
def observe (c : ConditionStack) : Bool × Bool := (c.empty, c.all_true)

/-- One operation on the `ConditionStack`, answering what can be read after
it. -/
def apply (c : ConditionStack) : Op → Except Thrown (ConditionStack × Bool × Bool)
  | .push_back f => .ok (c.push_back f, (c.push_back f).observe)
  | .pop_back => do
    let c' ← c.pop_back
    return (c', c'.observe)
  | .toggle_top => do
    let c' ← c.toggle_top
    return (c', c'.observe)

/-! ## The plain vector -/

namespace Plain

/-- `(v.empty(), all elements of v are true)`. -/
def observe (v : List Bool) : Bool × Bool := (v.isEmpty, v.all id)

/-- The operation on a `std::vector<bool>`: `push_back`, `pop_back`, and
`vfExec.back() = !vfExec.back()`. -/
def apply (v : List Bool) : Op → List Bool × Bool × Bool
  | .push_back f => (v ++ [f], observe (v ++ [f]))
  | .pop_back => (v.dropLast, observe v.dropLast)
  | .toggle_top => (v.modifyLast not, observe (v.modifyLast not))

/-- The operations allowed on a vector: no `pop_back` or `back()` on an empty
one, and no `push_back` that would make the size `NO_FALSE`. -/
def allowed (v : List Bool) : Op → Prop
  | .push_back _ => v.length < 2 ^ 32 - 1
  | .pop_back => v ≠ []
  | .toggle_top => v ≠ []

end Plain

/-! ## The encoding -/

/-- The `ConditionStack` that stands for the vector `v`: its size, and the
index of its first false value or `NO_FALSE`. -/
def ofList (v : List Bool) : ConditionStack :=
  ⟨v.length.toUInt32, if false ∈ v then (v.idxOf false).toUInt32 else NO_FALSE⟩

@[simp] theorem ofList_m_stack_size (v : List Bool) :
    (ofList v).m_stack_size = v.length.toUInt32 := rfl

theorem ofList_m_first_false_pos (v : List Bool) :
    (ofList v).m_first_false_pos =
      if false ∈ v then (v.idxOf false).toUInt32 else NO_FALSE := rfl

/-- A `ConditionStack` with the fields of `ofList v` is `ofList v`. -/
theorem eq_ofList {c : ConditionStack} {v : List Bool}
    (hs : c.m_stack_size = v.length.toUInt32)
    (hf : c.m_first_false_pos = (ofList v).m_first_false_pos) : c = ofList v := by
  obtain ⟨size, pos⟩ := c
  simp only at hs hf
  rw [hs, hf]
  rfl

/-! ### Positions as `uint32_t`

Sizes and positions below `2^32` are stored exactly, so two of them are equal
as `uint32_t` exactly when they are equal, and none below `2^32 - 1` is
`NO_FALSE`. -/

section Positions

variable {m n : Nat}

theorem toNat_toUInt32 (h : n < 2 ^ 32) : n.toUInt32.toNat = n :=
  UInt32.toNat_ofNat_of_lt' h

theorem toUInt32_inj (hm : m < 2 ^ 32) (hn : n < 2 ^ 32) :
    m.toUInt32 = n.toUInt32 ↔ m = n := by
  rw [← UInt32.toNat_inj, toNat_toUInt32 hm, toNat_toUInt32 hn]

theorem toUInt32_ne_NO_FALSE (h : n < 2 ^ 32 - 1) : n.toUInt32 ≠ NO_FALSE := by
  intro he
  have hn := congrArg UInt32.toNat he
  rw [toNat_toUInt32 (by omega), show NO_FALSE.toNat = 2 ^ 32 - 1 from rfl] at hn
  omega

theorem toUInt32_succ (n : Nat) : (n + 1).toUInt32 = n.toUInt32 + 1 := by
  simp only [Nat.toUInt32_eq, UInt32.ofNat_add]
  rfl

theorem toUInt32_succ_sub_one (n : Nat) : (n + 1).toUInt32 - 1 = n.toUInt32 := by
  rw [toUInt32_succ, UInt32.add_sub_cancel]

theorem toUInt32_succ_pos (h : n + 1 < 2 ^ 32) : (n + 1).toUInt32 > 0 := by
  rw [gt_iff_lt, UInt32.lt_iff_toNat_lt, toNat_toUInt32 h]
  exact Nat.succ_pos n

end Positions

/-! ### The first false value -/

/-- The first false value of `v`, where there is one, stands below the size. -/
theorem idxOf_false_lt {v : List Bool} (h : false ∈ v) : v.idxOf false < v.length :=
  List.idxOf_lt_length_of_mem h

/-- Below a vector with no false value, an appended false is the first one. -/
theorem idxOf_false_concat {w : List Bool} (h : false ∉ w) :
    (w ++ [false]).idxOf false = w.length := by
  rw [List.idxOf_append, if_neg h, List.idxOf_cons_self, Nat.zero_add]

/-- Negating the top keeps the size. -/
theorem length_modifyLast_not (v : List Bool) : (v.modifyLast not).length = v.length := by
  rcases List.eq_nil_or_concat v with rfl | ⟨w, x, rfl⟩
  · rfl
  · rw [List.concat_eq_append, List.modifyLast_concat, List.length_append, List.length_append]
    rfl

/-- The answers agree: a vector of at most `2^32 - 1` entries and its
`ConditionStack` read the same. -/
theorem observe_ofList {v : List Bool} (hv : v.length ≤ 2 ^ 32 - 1) :
    (ofList v).observe = Plain.observe v := by
  have hempty : (ofList v).empty = v.isEmpty := by
    cases v with
    | nil => rfl
    | cons b w =>
      have hne : (w.length + 1).toUInt32 ≠ 0 :=
        UInt32.pos_iff_ne_zero.mp (toUInt32_succ_pos (by simp at hv; omega))
      simpa [empty] using hne
  have hall : (ofList v).all_true = v.all id := by
    rw [all_true, ofList_m_first_false_pos]
    by_cases hf : false ∈ v
    · have hne := toUInt32_ne_NO_FALSE (Nat.lt_of_lt_of_le (idxOf_false_lt hf) (by omega))
      rw [if_pos hf, beq_eq_false_iff_ne.mpr hne]
      symm
      simpa using hf
    · rw [if_neg hf]
      simpa using hf
  simp only [observe, Plain.observe, hempty, hall]

/-! ## Each operation commutes with the encoding -/

section Steps

variable {v : List Bool}

theorem push_back_ofList (hv : v.length < 2 ^ 32 - 1) (f : Bool) :
    (ofList v).push_back f = ofList (v ++ [f]) := by
  refine eq_ofList (by simp [push_back, toUInt32_succ]) ?_
  simp only [push_back, ofList_m_stack_size]
  by_cases hf : false ∈ v
  · -- the first false value stays where it was
    have hne := toUInt32_ne_NO_FALSE (Nat.lt_trans (idxOf_false_lt hf) hv)
    simp [ofList_m_first_false_pos, hf, hne, List.idxOf_append_of_mem hf]
  · -- a pushed false becomes the first one
    cases f with
    | false => simp [ofList_m_first_false_pos, hf, idxOf_false_concat hf]
    | true => simp [ofList_m_first_false_pos, hf]

/-- `pop_back` of a non-empty vector: the assert holds. -/
theorem pop_back_ofList (hv : v.length ≤ 2 ^ 32 - 1) (hne : v ≠ []) :
    (ofList v).pop_back = .ok (ofList v.dropLast) := by
  obtain ⟨w, x, rfl⟩ : ∃ w x, v = w ++ [x] :=
    ⟨v.dropLast, v.getLast hne, (List.dropLast_append_getLast hne).symm⟩
  simp only [List.length_append, List.length_singleton] at hv
  have ha : assert (decide ((ofList (w ++ [x])).m_stack_size > 0)) = .ok () := by
    simpa using toUInt32_succ_pos (n := w.length) (by omega)
  unfold pop_back
  rw [ha, Except.ok_bind, List.dropLast_concat]
  refine congrArg Except.ok (eq_ofList ?_ ?_)
  · simp
  · simp only [ofList_m_stack_size, List.length_append, List.length_singleton,
      toUInt32_succ_sub_one]
    by_cases hf : false ∈ w
    · -- the first false value is below the popped one
      have hlt := idxOf_false_lt hf
      have hne : (w.idxOf false).toUInt32 ≠ w.length.toUInt32 := by
        rw [Ne, toUInt32_inj (by omega) (by omega)]
        omega
      simp [ofList_m_first_false_pos, hf, hne, List.idxOf_append_of_mem hf]
    · cases x with
      | false =>
        -- the popped value was the first false one
        simp [ofList_m_first_false_pos, hf, idxOf_false_concat hf]
      | true =>
        have hne : NO_FALSE ≠ w.length.toUInt32 := (toUInt32_ne_NO_FALSE (by omega)).symm
        simp [ofList_m_first_false_pos, hf, hne]

/-- `toggle_top` of a non-empty vector: the assert holds, and a toggle below
the first false value changes nothing that stands for the vector. -/
theorem toggle_top_ofList (hv : v.length ≤ 2 ^ 32 - 1) (hne : v ≠ []) :
    (ofList v).toggle_top = .ok (ofList (v.modifyLast not)) := by
  obtain ⟨w, x, rfl⟩ : ∃ w x, v = w ++ [x] :=
    ⟨v.dropLast, v.getLast hne, (List.dropLast_append_getLast hne).symm⟩
  simp only [List.length_append, List.length_singleton] at hv
  have ha : assert (decide ((ofList (w ++ [x])).m_stack_size > 0)) = .ok () := by
    simpa using toUInt32_succ_pos (n := w.length) (by omega)
  unfold toggle_top
  rw [ha, Except.ok_bind, List.modifyLast_concat]
  simp only [ofList_m_stack_size, List.length_append, List.length_singleton,
    toUInt32_succ_sub_one]
  by_cases hf : false ∈ w
  · -- a false value below the top: the toggle is dropped
    have hlt := idxOf_false_lt hf
    have hne : (w.idxOf false).toUInt32 ≠ w.length.toUInt32 := by
      rw [Ne, toUInt32_inj (by omega) (by omega)]
      omega
    have hnf := toUInt32_ne_NO_FALSE (n := w.idxOf false) (by omega)
    simp only [ofList_m_first_false_pos, List.mem_append, hf, true_or, if_true,
      List.idxOf_append_of_mem hf, beq_eq_false_iff_ne.mpr hnf, beq_eq_false_iff_ne.mpr hne,
      Bool.false_eq_true, if_false]
    exact congrArg Except.ok (eq_ofList (by simp) (by simp [ofList_m_first_false_pos, hf,
      List.idxOf_append_of_mem hf]))
  · cases x with
    | false =>
      -- the top is the first false value: everything becomes true
      have hnf := toUInt32_ne_NO_FALSE (n := w.length) (by omega)
      simp only [ofList_m_first_false_pos, List.mem_append, hf, false_or, List.mem_singleton,
        if_true, idxOf_false_concat hf, beq_eq_false_iff_ne.mpr hnf, beq_self_eq_true,
        Bool.false_eq_true, if_false]
      exact congrArg Except.ok (eq_ofList (by simp) (by simp [ofList_m_first_false_pos, hf]))
    | true =>
      -- all true: the top becomes the first false value
      simp only [ofList_m_first_false_pos, List.mem_append, hf, false_or, List.mem_singleton,
        Bool.false_eq_true, if_false, beq_self_eq_true, if_true]
      exact congrArg Except.ok (eq_ofList (by simp)
        (by simp [ofList_m_first_false_pos, hf, idxOf_false_concat hf]))

/-- Every allowed operation keeps the vector within `2^32 - 1` entries and
commutes with the encoding, answering what the vector answers. -/
theorem stepEncodes :
    Simulation.StepEncodes apply Plain.apply Plain.allowed ofList
      (fun v => v.length ≤ 2 ^ 32 - 1) := by
  intro v op hv hallowed
  cases op with
  | push_back f =>
    have hv' : (v ++ [f]).length ≤ 2 ^ 32 - 1 := by
      simp only [List.length_append, List.length_singleton]
      exact hallowed
    refine ⟨hv', ?_⟩
    simp only [apply, Plain.apply, push_back_ofList hallowed, observe_ofList hv']
  | pop_back =>
    have hv' : v.dropLast.length ≤ 2 ^ 32 - 1 := by
      rw [List.length_dropLast]
      omega
    refine ⟨hv', ?_⟩
    simp only [apply, Plain.apply, pop_back_ofList hv hallowed, Except.ok_bind,
      observe_ofList hv']
    rfl
  | toggle_top =>
    have hv' : (v.modifyLast not).length ≤ 2 ^ 32 - 1 := by
      rw [length_modifyLast_not]
      exact hv
    refine ⟨hv', ?_⟩
    simp only [apply, Plain.apply, toggle_top_ofList hv hallowed, Except.ok_bind,
      observe_ofList hv']
    rfl

end Steps

/-! ## Runs -/

/-- The empty `ConditionStack` stands for the empty vector. -/
theorem default_eq_ofList_nil : ({} : ConditionStack) = ofList [] := rfl

/-- Every run of allowed operations from the empty condition stack succeeds (no
assert fires), ends in the `ConditionStack` that stands for the vector the
same operations build, and answers `(empty(), all_true())` after each
operation as the vector does; the final state reads as the vector too. -/
theorem run_refines_vector (ops : List Op)
    (hadm : Simulation.Admissible Plain.allowed Plain.apply [] ops) :
    Simulation.run apply {} ops =
        .ok (ofList (Simulation.runSpec Plain.apply [] ops).1,
          (Simulation.runSpec Plain.apply [] ops).2) ∧
      (ofList (Simulation.runSpec Plain.apply [] ops).1).observe =
        Plain.observe (Simulation.runSpec Plain.apply [] ops).1 := by
  obtain ⟨hlen, hrun⟩ := Simulation.run_encodes stepEncodes ops [] (by simp) hadm
  rw [default_eq_ofList_nil]
  exact ⟨hrun, observe_ofList hlen⟩


/-- `OP_IF`, a nested `OP_NOTIF` taken, an `OP_IF` inside it, `OP_ELSE`,
`OP_ENDIF`, `OP_ELSE`, `OP_ENDIF`. -/
def nestedOps : List Op :=
  [.push_back true, .push_back false, .push_back true, .toggle_top, .pop_back, .toggle_top,
    .pop_back]

theorem run_refines_vector_nested :
    Simulation.Admissible Plain.allowed Plain.apply [] nestedOps ∧
      Simulation.run apply {} nestedOps =
          .ok (ofList (Simulation.runSpec Plain.apply [] nestedOps).1,
            (Simulation.runSpec Plain.apply [] nestedOps).2) ∧
        (ofList (Simulation.runSpec Plain.apply [] nestedOps).1).observe =
          Plain.observe (Simulation.runSpec Plain.apply [] nestedOps).1 := by
  have hadm : Simulation.Admissible Plain.allowed Plain.apply [] nestedOps := by
    simp only [nestedOps, Simulation.Admissible, Plain.allowed, Plain.apply]
    decide
  exact ⟨hadm, run_refines_vector nestedOps hadm⟩

end ConditionStack

end Script

end BitcoinAbc
