import Mathlib

/-!
# Slots of the peer manager (avalanche/peermanager.h, avalanche/peermanager.cpp)

The peer manager draws peers with a probability proportional to their score:
each peer with nodes owns a `Slot`, the range `[start, start + score)`, the
slots lie one after the other in a vector, and a point drawn below `slotCount`
selects the peer whose slot contains it (`selectPeerImpl`). A peer that loses
its last node leaves its slot behind with the peer id `NO_PEER`, and `compact`
rebuilds the vector from the peers that still have nodes.

- `selectPeerLoop_eq`: on slots that follow each other below `max`, the
  interpolation search of `selectPeerImpl` finds `slotPeer`, the peer of the
  slot containing the point, never failing its `assert` nor dividing by zero;
  `SearchInv` is the invariant of its loop;
- `compact_starts`: the slots `compact` builds take each start from the old
  vector at the same position, so that they overlap as soon as a dead slot
  precedes a live one (`compact_reads_old_slots`).

`addNodeToPeer` and `removeNodeFromPeer` keep the slots a peer's nodes allocate
and free; the proofs, the nodes and the proof pools are left out.
-/

namespace BitcoinAbc

namespace Avalanche

/-- `PeerId`. -/
abbrev PeerId := UInt32

/-- `NO_PEER`, the `PeerId` `-1`. -/
def NO_PEER : PeerId := 0xffffffff

/-- `Slot`: the range `[start, start + score)` drawn for the peer `peerid`. -/
structure Slot where
  start : UInt64
  score : UInt32
  peerid : PeerId
  deriving DecidableEq, Repr

namespace Slot

/-- `getStop()`, computed in `uint64_t`. -/
def getStop (s : Slot) : UInt64 := s.start + s.score.toUInt64

def contains (s : Slot) (slot : UInt64) : Bool := s.start ≤ slot && slot < s.getStop

def precedes (s : Slot) (slot : UInt64) : Bool := slot ≥ s.getStop

def follows (s : Slot) (slot : UInt64) : Bool := s.start > slot

/-- The stop of the slot as a number. -/
def stopNat (s : Slot) : Nat := s.start.toNat + s.score.toNat

/-- `a` stops, as a number, where or before `b` starts. -/
def Before (a b : Slot) : Prop := a.stopNat ≤ b.start.toNat

instance : DecidableRel Before := fun a b => inferInstanceAs (Decidable (a.stopNat ≤ b.start.toNat))

theorem start_le_stopNat (s : Slot) : s.start.toNat ≤ s.stopNat := Nat.le_add_right _ _

instance : Trans Before Before Before where
  trans hab hbc := Nat.le_trans hab (Nat.le_trans (start_le_stopNat _) hbc)

theorem toNat_getStop {s : Slot} (h : s.stopNat < 2 ^ 64) : s.getStop.toNat = s.stopNat := by
  rw [getStop, UInt64.toNat_add, UInt32.toNat_toUInt64]
  exact Nat.mod_eq_of_lt h

section Tests

variable {s : Slot} {slot : UInt64} (h : s.stopNat < 2 ^ 64)
include h

theorem contains_iff : s.contains slot ↔ s.start.toNat ≤ slot.toNat ∧ slot.toNat < s.stopNat := by
  simp [contains, UInt64.le_iff_toNat_le, UInt64.lt_iff_toNat_lt, toNat_getStop h]

theorem precedes_iff : s.precedes slot ↔ s.stopNat ≤ slot.toNat := by
  simp [precedes, UInt64.le_iff_toNat_le, toNat_getStop h]

end Tests

theorem follows_iff {s : Slot} {slot : UInt64} : s.follows slot ↔ slot.toNat < s.start.toNat := by
  simp [follows, UInt64.lt_iff_toNat_lt]

end Slot

/-! ## `selectPeerImpl` -/

/-- The linear search that ends `selectPeerImpl`: the first slot of
`slots[begin, end)` that contains `slot`. -/
def linearSearch (slots : List Slot) (slot : UInt64) (begin end_ : Nat) : PeerId :=
  match ((slots.drop begin).take (end_ - begin)).find? (·.contains slot) with
  | some s => s.peerid
  | none => NO_PEER

/-- The loop of `selectPeerImpl` over `slots[begin, end)`, whose slots lie in
`[bottom, top)`; `none` where the `assert` fails, a slot is read out of range or
`top - bottom` is zero. -/
def selectPeerLoop (slots : List Slot) (slot : UInt64) (begin end_ : Nat) (bottom top : UInt64) :
    Option PeerId :=
  if end_ - begin > 8 then
    -- the slot we picked is not allocated
    if slot < bottom || slot ≥ top then some NO_PEER
    else if top - bottom = 0 then none
    else
      -- guesstimate the position of the slot
      let i := (begin.toUInt64 + (slot - bottom) * (end_ - begin).toUInt64 / (top - bottom)).toNat
      if _hi : begin ≤ i ∧ i < end_ then
        match slots[i]? with
        | none => none
        | some s =>
          if s.contains slot then some s.peerid
          -- we undershot
          else if s.precedes slot then
            if i + 1 ≥ end_ then some NO_PEER
            else
              match slots[i + 1]? with
              | none => none
              | some next => selectPeerLoop slots slot (i + 1) end_ next.start top
          -- we overshot
          else if s.follows slot then selectPeerLoop slots slot begin i bottom s.start
          else some NO_PEER
      else none
  else some (linearSearch slots slot begin end_)
termination_by end_ - begin
decreasing_by
  all_goals
    simp only [i] at _hi
    omega

/-- `selectPeerImpl(slots, slot, max)`. -/
def selectPeerImpl (slots : List Slot) (slot max : UInt64) : Option PeerId :=
  if slot ≤ max then selectPeerLoop slots slot 0 slots.length 0 max else none

/-- What `selectPeerImpl` is for: the peer of the slot that contains `slot`,
`NO_PEER` where none does. -/
def slotPeer (slots : List Slot) (slot : UInt64) : PeerId :=
  match slots.find? (·.contains slot) with
  | some s => s.peerid
  | none => NO_PEER

/-- The slots as the peer manager lays them out below `max`: each stops, as a
number, where or before the next starts, all stop by `max`, and `max` times
their number fits in 64 bits. -/
structure Sorted (slots : List Slot) (max : UInt64) : Prop where
  chain : slots.IsChain Slot.Before
  stop_le : ∀ s ∈ slots, s.stopNat ≤ max.toNat
  size : max.toNat * slots.length < 2 ^ 64

/-! ## Slots laid out one after the other -/

/-- The invariant of the search loop: a slot that contains the point lies in
`[begin, end)`, and the slots there start at `bottom` or later and stop by
`top`. -/
structure SearchInv (slots : List Slot) (slot max : UInt64) (begin end_ : Nat) (bottom top : UInt64) :
    Prop where
  le : begin ≤ end_
  end_le : end_ ≤ slots.length
  top_le : top ≤ max
  mem : ∀ j (hj : j < slots.length), slots[j].contains slot → begin ≤ j ∧ j < end_
  bottom_le : ∀ j (hj : j < slots.length), begin ≤ j → j < end_ → bottom.toNat ≤ slots[j].start.toNat
  le_top : ∀ j (hj : j < slots.length), begin ≤ j → j < end_ → slots[j].stopNat ≤ top.toNat

theorem slotPeer_of_not_contains {slots : List Slot} {slot : UInt64}
    (h : ∀ j (hj : j < slots.length), slots[j].contains slot = false) : slotPeer slots slot = NO_PEER := by
  have hnone : slots.find? (·.contains slot) = none := by
    rw [List.find?_eq_none]
    intro s hs
    obtain ⟨k, hk, rfl⟩ := List.getElem_of_mem hs
    simp [h k hk]
  rw [slotPeer, hnone]

section Layout

variable {slots : List Slot} {max slot : UInt64} (hS : Sorted slots max)
include hS

theorem Sorted.before {i j : Nat} (hij : i < j) (hj : j < slots.length) :
    slots[i].stopNat ≤ slots[j].start.toNat :=
  List.pairwise_iff_getElem.mp hS.chain.pairwise i j (by omega) hj hij

theorem Sorted.stopNat_lt {s : Slot} (hs : s ∈ slots) : s.stopNat < 2 ^ 64 :=
  Nat.lt_of_le_of_lt (hS.stop_le s hs) max.toNat_lt

theorem Sorted.contains_iff {j : Nat} (hj : j < slots.length) :
    slots[j].contains slot ↔ slots[j].start.toNat ≤ slot.toNat ∧ slot.toNat < slots[j].stopNat :=
  Slot.contains_iff (hS.stopNat_lt (List.getElem_mem hj))

/-- At most one slot contains a point. -/
theorem Sorted.eq_of_contains {i j : Nat} (hi : i < slots.length) (hj : j < slots.length)
    (hci : slots[i].contains slot) (hcj : slots[j].contains slot) : i = j := by
  rw [hS.contains_iff hi] at hci
  rw [hS.contains_iff hj] at hcj
  rcases Nat.lt_trichotomy i j with hij | rfl | hji
  · have := hS.before hij hj
    omega
  · rfl
  · have := hS.before hji hi
    omega

/-- A search of a part of the slots that holds the slot containing the point
finds that slot. -/
theorem Sorted.find?_eq_of_contains {l : List Slot} (hl : ∀ s ∈ l, s ∈ slots) {j : Nat}
    (hj : j < slots.length) (hc : slots[j].contains slot) (hmem : slots[j] ∈ l) :
    l.find? (·.contains slot) = some slots[j] := by
  obtain ⟨s, hs⟩ := Option.isSome_iff_exists.mp
    ((List.find?_isSome (p := fun s : Slot => s.contains slot)).mpr ⟨slots[j], hmem, hc⟩)
  obtain ⟨k, hk, rfl⟩ := List.getElem_of_mem (hl s (List.mem_of_find?_eq_some hs))
  have hck : slots[k].contains slot := List.find?_some (p := fun s : Slot => s.contains slot) hs
  obtain rfl := hS.eq_of_contains hk hj hck hc
  exact hs

theorem Sorted.slotPeer_of_contains {j : Nat} (hj : j < slots.length) (hc : slots[j].contains slot) :
    slotPeer slots slot = slots[j].peerid := by
  rw [slotPeer, hS.find?_eq_of_contains (fun _ h => h) hj hc (List.getElem_mem hj)]

/-- A point at or past the stop of slot `i` is in no slot up to `i`. -/
theorem Sorted.not_contains_of_stop_le {i j : Nat} (hi : i < slots.length) (hji : j ≤ i)
    (hp : slots[i].stopNat ≤ slot.toNat) : slots[j].contains slot = false := by
  have hj : j < slots.length := by omega
  have hstop : slots[j].stopNat ≤ slots[i].stopNat := by
    rcases Nat.lt_or_ge j i with hlt | hge
    · exact Nat.le_trans (hS.before hlt hi) (Slot.start_le_stopNat _)
    · obtain rfl : j = i := by omega
      exact Nat.le_refl _
  rw [Bool.eq_false_iff, ne_eq, hS.contains_iff hj]
  omega

/-- A point before the start of slot `i` is in no slot from `i` on. -/
theorem Sorted.not_contains_of_lt_start {i j : Nat} (hj : j < slots.length) (hij : i ≤ j)
    (hf : slot.toNat < slots[i].start.toNat) : slots[j].contains slot = false := by
  have hstart : slots[i].start.toNat ≤ slots[j].start.toNat := by
    rcases Nat.lt_or_ge i j with hlt | hge
    · exact Nat.le_trans (Slot.start_le_stopNat _) (hS.before hlt hj)
    · obtain rfl : j = i := by omega
      exact Nat.le_refl _
  rw [Bool.eq_false_iff, ne_eq, hS.contains_iff hj]
  omega

/-- A search of a part of the slots that holds every slot containing the point
answers as `slotPeer`. -/
theorem Sorted.find?_part {l : List Slot} (hl : ∀ s ∈ l, s ∈ slots)
    (hall : ∀ j (hj : j < slots.length), slots[j].contains slot → slots[j] ∈ l) :
    (match l.find? (·.contains slot) with
      | some s => s.peerid
      | none => NO_PEER) = slotPeer slots slot := by
  by_cases hex : ∃ j, ∃ hj : j < slots.length, slots[j].contains slot
  · obtain ⟨j, hj, hc⟩ := hex
    rw [hS.find?_eq_of_contains hl hj hc (hall j hj hc), hS.slotPeer_of_contains hj hc]
  · have hnone : l.find? (·.contains slot) = none := by
      rw [List.find?_eq_none]
      intro s hs hc
      obtain ⟨k, hk, rfl⟩ := List.getElem_of_mem (hl s hs)
      exact hex ⟨k, hk, hc⟩
    rw [hnone, slotPeer_of_not_contains fun j hj => by simpa using fun hc => hex ⟨j, hj, hc⟩]

end Layout

/-- The linear search finds the slot that holds the point, when that slot lies
in the range searched. -/
theorem linearSearch_eq {slots : List Slot} {max slot : UInt64} (hS : Sorted slots max) {begin end_ : Nat}
    (hmem : ∀ j (hj : j < slots.length), slots[j].contains slot → begin ≤ j ∧ j < end_) :
    linearSearch slots slot begin end_ = slotPeer slots slot := by
  unfold linearSearch
  refine hS.find?_part (fun s hs => List.mem_of_mem_drop (List.mem_of_mem_take hs)) ?_
  intro j hj hc
  obtain ⟨hbj, hje⟩ := hmem j hj hc
  rw [List.mem_iff_getElem]
  refine ⟨j - begin, by simp; omega, ?_⟩
  rw [List.getElem_take, List.getElem_drop]
  congr 1
  omega

/-- The interpolation step computes its index exactly: the product stays below
`2^64` and `top - bottom` is not zero. -/
theorem interpolate_toNat {begin end_ : Nat} {slot bottom top : UInt64} (hb : bottom ≤ slot)
    (ht : slot < top) (hle : begin ≤ end_) (hsize : top.toNat * (end_ - begin) < 2 ^ 64)
    (hend : end_ < 2 ^ 64) :
    (begin.toUInt64 + (slot - bottom) * (end_ - begin).toUInt64 / (top - bottom)).toNat =
      begin + (slot.toNat - bottom.toNat) * (end_ - begin) / (top.toNat - bottom.toNat) := by
  rw [UInt64.le_iff_toNat_le] at hb
  rw [UInt64.lt_iff_toNat_lt] at ht
  have hd : (end_ - begin).toUInt64.toNat = end_ - begin := by
    simp only [Nat.toUInt64, UInt64.toNat_ofNat']
    omega
  have hbg : begin.toUInt64.toNat = begin := by
    simp only [Nat.toUInt64, UInt64.toNat_ofNat']
    omega
  have hprod : (slot.toNat - bottom.toNat) * (end_ - begin) < 2 ^ 64 :=
    Nat.lt_of_le_of_lt (Nat.mul_le_mul_right _ (by omega)) hsize
  -- the quotient is below `end - begin`, so the sum stays below `end`
  have hq : (slot.toNat - bottom.toNat) * (end_ - begin) / (top.toNat - bottom.toNat) ≤ end_ - begin :=
    Nat.div_le_of_le_mul (Nat.mul_le_mul_right (end_ - begin)
      (show slot.toNat - bottom.toNat ≤ top.toNat - bottom.toNat by omega))
  have hsum : begin + (slot.toNat - bottom.toNat) * (end_ - begin) / (top.toNat - bottom.toNat) <
      2 ^ 64 := by
    omega
  rw [UInt64.toNat_add, UInt64.toNat_div, UInt64.toNat_mul, UInt64.toNat_sub_of_le _ _ hb, hd,
    Nat.mod_eq_of_lt hprod, UInt64.toNat_sub_of_le _ _ (UInt64.le_iff_toNat_le.mpr (by omega)), hbg,
    Nat.mod_eq_of_lt hsum]

theorem interpolate_lt {begin end_ s b t : Nat} (hb : b ≤ s) (ht : s < t) (hle : begin < end_) :
    begin + (s - b) * (end_ - begin) / (t - b) < end_ := by
  have hlt : (s - b) * (end_ - begin) / (t - b) < end_ - begin := by
    rw [Nat.div_lt_iff_lt_mul (by omega), Nat.mul_comm (end_ - begin)]
    exact Nat.mul_lt_mul_of_pos_right (by omega) (by omega)
  omega

section Search

variable {slots : List Slot} {max slot : UInt64} (hS : Sorted slots max)
include hS

/-- Once the point is outside `[bottom, top)`, no slot contains it. -/
theorem SearchInv.not_contains_of_out {begin end_ : Nat} {bottom top : UInt64}
    (hinv : SearchInv slots slot max begin end_ bottom top) (hout : slot < bottom ∨ top ≤ slot) :
    ∀ j (hj : j < slots.length), slots[j].contains slot = false := by
  intro j hj
  rw [Bool.eq_false_iff]
  intro hc
  obtain ⟨hbj, hje⟩ := hinv.mem j hj hc
  have hb := hinv.bottom_le j hj hbj hje
  have ht := hinv.le_top j hj hbj hje
  rw [hS.contains_iff hj] at hc
  rw [UInt64.lt_iff_toNat_lt, UInt64.le_iff_toNat_le] at hout
  omega

/-- Undershooting at slot `i`: the slots up to `i` stop by the point, so the
search goes on after `i`. -/
theorem SearchInv.undershoot {begin end_ i : Nat} {bottom top : UInt64}
    (hinv : SearchInv slots slot max begin end_ bottom top) (hbi : begin ≤ i) (hi : i + 1 < end_)
    (hp : (slots.get ⟨i, by have := hinv.end_le; omega⟩).stopNat ≤ slot.toNat) :
    SearchInv slots slot max (i + 1) end_ (slots.get ⟨i + 1, by have := hinv.end_le; omega⟩).start top where
  le := by omega
  end_le := hinv.end_le
  top_le := hinv.top_le
  mem j hj hc := by
    obtain ⟨hbj, hje⟩ := hinv.mem j hj hc
    refine ⟨Nat.lt_of_not_le fun hji => ?_, hje⟩
    rw [hS.not_contains_of_stop_le (by have := hinv.end_le; omega) (by omega) hp] at hc
    exact Bool.false_ne_true hc
  bottom_le j hj hij hje := by
    rcases Nat.lt_or_ge (i + 1) j with hlt | hge
    · exact Nat.le_trans (Slot.start_le_stopNat _) (hS.before hlt hj)
    · obtain rfl : j = i + 1 := by omega
      exact Nat.le_refl _
  le_top j hj hij hje := hinv.le_top j hj (by omega) hje

/-- Overshooting at slot `i`: the slots from `i` on start after the point, so
the search goes on before `i`. -/
theorem SearchInv.overshoot {begin end_ i : Nat} {bottom top : UInt64}
    (hinv : SearchInv slots slot max begin end_ bottom top) (hbi : begin ≤ i) (hi : i < end_)
    (hf : slot.toNat < (slots.get ⟨i, by have := hinv.end_le; omega⟩).start.toNat) :
    SearchInv slots slot max begin i bottom (slots.get ⟨i, by have := hinv.end_le; omega⟩).start where
  le := hbi
  end_le := by have := hinv.end_le; omega
  top_le := by
    have hstop := hinv.le_top i (by have := hinv.end_le; omega) hbi hi
    have := hinv.top_le
    rw [UInt64.le_iff_toNat_le] at this ⊢
    exact Nat.le_trans (Nat.le_trans (Slot.start_le_stopNat _) hstop) this
  mem j hj hc := by
    obtain ⟨hbj, hje⟩ := hinv.mem j hj hc
    refine ⟨hbj, Nat.lt_of_not_le fun hij => ?_⟩
    rw [hS.not_contains_of_lt_start hj hij hf] at hc
    exact Bool.false_ne_true hc
  bottom_le j hj hbj hji := hinv.bottom_le j hj hbj (by omega)
  le_top j hj hbj hji := hS.before hji (by have := hinv.end_le; omega)

/-- The search loop finds the peer of the slot containing the point. The
induction is on `end - begin`, which every pass shrinks, with `SearchInv` as
the invariant; on the way the `assert` holds and `top - bottom` is never zero. -/
theorem selectPeerLoop_eq (hlt : slot < max) (n : Nat) :
    ∀ begin end_ bottom top, end_ - begin = n → SearchInv slots slot max begin end_ bottom top →
      selectPeerLoop slots slot begin end_ bottom top = some (slotPeer slots slot) := by
  induction n using Nat.strong_induction_on with
  | _ n ih =>
  intro begin end_ bottom top hn hinv
  have hlen := hinv.end_le
  rw [selectPeerLoop]
  by_cases hbig : end_ - begin > 8
  · rw [if_pos hbig]
    by_cases hout : slot < bottom ∨ top ≤ slot
    · -- the point is outside the slots left: none contains it
      have hcond : (decide (slot < bottom) || decide (slot ≥ top)) = true := by
        simpa using hout
      rw [if_pos hcond, slotPeer_of_not_contains (hinv.not_contains_of_out hS hout)]
    · have hcond : ¬ (decide (slot < bottom) || decide (slot ≥ top)) = true := by
        simpa using hout
      rw [if_neg hcond]
      have hb : bottom ≤ slot := UInt64.le_iff_toNat_le.mpr
        (Nat.le_of_not_lt fun h => hout (Or.inl (UInt64.lt_iff_toNat_lt.mpr h)))
      have ht : slot < top := UInt64.lt_iff_toNat_lt.mpr
        (Nat.lt_of_not_le fun h => hout (Or.inr (UInt64.le_iff_toNat_le.mpr h)))
      have hne : top - bottom ≠ 0 := by
        rw [ne_eq, ← UInt64.toNat_inj, UInt64.toNat_sub_of_le _ _ (UInt64.le_of_lt
          (UInt64.lt_of_le_of_lt hb ht)), UInt64.toNat_zero]
        rw [UInt64.le_iff_toNat_le] at hb
        rw [UInt64.lt_iff_toNat_lt] at ht
        omega
      rw [if_neg hne]
      -- the index is computed exactly and lands in `[begin, end)`
      have htop := UInt64.le_iff_toNat_le.mp hinv.top_le
      have hmax : max.toNat * slots.length < 2 ^ 64 := hS.size
      have hmax1 : 1 ≤ max.toNat := by
        have := UInt64.lt_iff_toNat_lt.mp hlt
        omega
      have hsize : top.toNat * (end_ - begin) < 2 ^ 64 :=
        Nat.lt_of_le_of_lt (Nat.mul_le_mul htop (by omega)) hmax
      have hend : end_ < 2 ^ 64 :=
        Nat.lt_of_le_of_lt (Nat.le_trans hlen (Nat.le_mul_of_pos_left _ hmax1)) hmax
      dsimp only
      rw [interpolate_toNat hb ht hinv.le hsize hend]
      have hie := interpolate_lt (UInt64.le_iff_toNat_le.mp hb) (UInt64.lt_iff_toNat_lt.mp ht)
        (show begin < end_ by omega)
      have hbi : begin ≤ begin + (slot.toNat - bottom.toNat) * (end_ - begin) /
          (top.toNat - bottom.toNat) := Nat.le_add_right _ _
      generalize begin + (slot.toNat - bottom.toNat) * (end_ - begin) / (top.toNat - bottom.toNat) = i
        at hbi hie ⊢
      have hil : i < slots.length := by omega
      rw [dif_pos ⟨hbi, hie⟩, List.getElem?_eq_getElem hil]
      dsimp only
      have hstop := hS.stopNat_lt (List.getElem_mem hil)
      by_cases hc : slots[i].contains slot = true
      · rw [if_pos hc, hS.slotPeer_of_contains hil hc]
      · rw [if_neg hc]
        by_cases hp : slots[i].precedes slot = true
        · -- we undershot: the point is past slot `i`
          have hp' := (Slot.precedes_iff hstop).mp hp
          rw [if_pos hp]
          by_cases hend' : i + 1 ≥ end_
          · rw [if_pos hend', slotPeer_of_not_contains]
            intro j hj
            rw [Bool.eq_false_iff]
            intro hcj
            obtain ⟨hbj, hje⟩ := hinv.mem j hj hcj
            rw [hS.not_contains_of_stop_le hil (by omega) hp'] at hcj
            exact Bool.false_ne_true hcj
          · rw [if_neg hend', List.getElem?_eq_getElem (show i + 1 < slots.length by omega)]
            exact ih _ (by omega) _ _ _ _ rfl (hinv.undershoot hS hbi (by omega) hp')
        · -- we overshot: the point is before slot `i`
          rw [if_neg hp]
          have hf : slots[i].follows slot = true := by
            rw [Slot.follows_iff]
            rw [Slot.contains_iff hstop] at hc
            rw [Slot.precedes_iff hstop] at hp
            omega
          rw [if_pos hf]
          exact ih _ (by omega) _ _ _ _ rfl (hinv.overshoot hS hbi hie (Slot.follows_iff.mp hf))
  · rw [if_neg hbig, linearSearch_eq hS hinv.mem]

/-- `selectPeerImpl` answers as `slotPeer` on slots laid out below `max`. -/
theorem selectPeerImpl_eq (hlt : slot < max) :
    selectPeerImpl slots slot max = some (slotPeer slots slot) := by
  have hinv : SearchInv slots slot max 0 slots.length 0 max :=
    { le := Nat.zero_le _
      end_le := Nat.le_refl _
      top_le := UInt64.le_refl _
      mem := fun j hj _ => ⟨Nat.zero_le _, hj⟩
      bottom_le := fun _ _ _ _ => Nat.zero_le _
      le_top := fun j hj _ _ => hS.stop_le _ (List.getElem_mem hj) }
  rw [selectPeerImpl, if_pos (UInt64.le_of_lt hlt)]
  exact selectPeerLoop_eq hS hlt _ 0 slots.length 0 max rfl hinv

end Search

/-- `selectPeerImpl` finds exactly the slot containing the drawn point: on
slots that follow each other, as numbers, below `max`, with `max` times their
number below `2^64`, and a point below `max`, it never fails its `assert` nor
divides by zero, at most one slot contains the point, the search returns that
slot's peer id, and `NO_PEER` exactly where no slot contains the point or the
slot that does is a dead one. -/
theorem selectPeerImpl_spec (slots : List Slot) (slot max : UInt64) (hS : Sorted slots max)
    (hlt : slot < max) :
    selectPeerImpl slots slot max ≠ none ∧
    (∀ i j (hi : i < slots.length) (hj : j < slots.length),
      slots[i].contains slot → slots[j].contains slot → i = j) ∧
    (∀ i (hi : i < slots.length), slots[i].contains slot →
      selectPeerImpl slots slot max = some slots[i].peerid) ∧
    (selectPeerImpl slots slot max = some NO_PEER ↔
      (∀ i (hi : i < slots.length), slots[i].contains slot = false) ∨
        ∃ i, ∃ hi : i < slots.length, slots[i].contains slot ∧ slots[i].peerid = NO_PEER) := by
  rw [selectPeerImpl_eq hS hlt]
  refine ⟨Option.some_ne_none _, fun i j hi hj => hS.eq_of_contains hi hj, ?_, ?_⟩
  · intro i hi hc
    rw [hS.slotPeer_of_contains hi hc]
  · constructor
    · intro hno
      by_cases hex : ∃ i, ∃ hi : i < slots.length, slots[i].contains slot
      · obtain ⟨i, hi, hc⟩ := hex
        rw [hS.slotPeer_of_contains hi hc, Option.some_inj] at hno
        exact Or.inr ⟨i, hi, hc, hno⟩
      · exact Or.inl fun i hi => by simpa using fun hc => hex ⟨i, hi, hc⟩
    · rintro (hnone | ⟨i, hi, hc, hpeer⟩)
      · rw [slotPeer_of_not_contains hnone]
      · rw [hS.slotPeer_of_contains hi hc, hpeer]

/-- The slots of ten peers of score 10 below 100 satisfy the layout. -/
theorem selectPeerImpl_spec_tenPeers :
    Sorted ((List.range 10).map fun k => (⟨(10 * k).toUInt64, 10, k.toUInt32⟩ : Slot)) 100 ∧
      selectPeerImpl ((List.range 10).map fun k => (⟨(10 * k).toUInt64, 10, k.toUInt32⟩ : Slot)) 55 100 ≠
        none :=
  have hS : Sorted ((List.range 10).map fun k => (⟨(10 * k).toUInt64, 10, k.toUInt32⟩ : Slot)) 100 :=
    ⟨by decide, by decide, by decide⟩
  ⟨hS, (selectPeerImpl_spec _ 55 100 hS (by decide)).1⟩

/-- As `NO_PEER` is also the peer id of a dead slot, a point in a dead slot
gives `NO_PEER`; and a slot whose `getStop()` wraps past `2^64` is taken as
preceding every point, so that a search landing on it gives up. -/
theorem selectPeerImpl_dead_or_wrapped_slot :
    (⟨0, 10, NO_PEER⟩ : Slot).contains 5 = true ∧ (⟨0, 10, NO_PEER⟩ : Slot).getStop ≤ 10 ∧
      selectPeerImpl [⟨0, 10, NO_PEER⟩] 5 10 = some NO_PEER ∧
    ((List.range 8).map (fun k => (⟨(10 * k).toUInt64, 10, k.toUInt32⟩ : Slot)) ++
        [(⟨80, 19, 8⟩ : Slot), ⟨0xffffffffffffffff, 2, 9⟩]).map Slot.getStop =
      ([10, 20, 30, 40, 50, 60, 70, 80, 99, 1] : List UInt64) ∧
      (⟨80, 19, 8⟩ : Slot).contains 95 = true ∧
      selectPeerImpl ((List.range 8).map (fun k => (⟨(10 * k).toUInt64, 10, k.toUInt32⟩ : Slot)) ++
        [(⟨80, 19, 8⟩ : Slot), ⟨0xffffffffffffffff, 2, 9⟩]) 95 100 = some NO_PEER := by
  -- one pass of the loop each: `selectPeerLoop` is well-founded, so it is unfolded by hand
  refine ⟨by decide, by decide, ?_, by decide, by decide, ?_⟩
  · rw [selectPeerImpl, selectPeerLoop]
    decide
  · rw [selectPeerImpl, selectPeerLoop]
    decide

/-! ## Peers with nodes and `compact` -/

/-- `Peer`, with the fields the slots read; `score` is `getScore()`, the score
of the peer's proof. -/
structure Peer where
  peerid : PeerId
  index : UInt32
  node_count : UInt32
  score : UInt32
  deriving DecidableEq, Repr

/-- The part of `PeerManager` that the slots live in, `peers` in the order of
the container's first index. -/
structure PeerManager where
  peers : List Peer
  slots : List Slot
  slotCount : UInt64
  fragmentation : UInt64
  connectedPeersScore : UInt64
  deriving DecidableEq, Repr

namespace PeerManager

/-- `peers.modify(it, f)` on the peer `peerid`. -/
def modifyPeer (peers : List Peer) (peerid : PeerId) (f : Peer → Peer) : List Peer :=
  peers.map fun q => if q.peerid = peerid then f q else q

/-- `addNodeToPeer`: the first node of a peer allocates its slot at the end;
`none` where the `assert` that the peer exists fails. -/
def addNodeToPeer (pm : PeerManager) (peerid : PeerId) : Option PeerManager :=
  match pm.peers.find? (·.peerid = peerid) with
  | none => none
  | some p =>
    if p.node_count > 0 then
      some { pm with peers := modifyPeer pm.peers peerid fun q => { q with node_count := q.node_count + 1 } }
    else
      -- we need to allocate this peer
      let score := p.score
      let start := pm.slotCount
      some { pm with
        peers := modifyPeer pm.peers peerid fun q =>
          { q with node_count := q.node_count + 1, index := pm.slots.length.toUInt32 }
        slots := pm.slots ++ [⟨start, score, peerid⟩]
        slotCount := start + score.toUInt64
        connectedPeersScore := pm.connectedPeersScore + score.toUInt64 }

/-- `removeNodeFromPeer(it, count)`: a peer left without nodes frees its slot,
the last one by popping it, any other by leaving it behind as `NO_PEER`;
`none` where an `assert` fails. -/
def removeNodeFromPeer (pm : PeerManager) (peerid : PeerId) (count : UInt32) : Option PeerManager :=
  match pm.peers.find? (·.peerid = peerid) with
  | none => some pm
  | some p =>
    if count > p.node_count then none
    else if count = 0 then some pm
    else
      let new_count := p.node_count - count
      let peers := modifyPeer pm.peers peerid fun q => { q with node_count := new_count }
      if new_count > 0 then some { pm with peers }
      else
        let i := p.index.toNat
        match pm.slots[i]? with
        | none => none
        | some slot =>
          if pm.connectedPeersScore < slot.score.toUInt64 then none
          else
            let connectedPeersScore := pm.connectedPeersScore - slot.score.toUInt64
            if i + 1 = pm.slots.length then
              let slots := pm.slots.dropLast
              some { pm with
                peers, slots, connectedPeersScore
                slotCount := match slots.getLast? with
                  | none => 0
                  | some last => last.getStop }
            else
              some { pm with
                peers, connectedPeersScore
                fragmentation := pm.fragmentation + slot.score.toUInt64
                slots := pm.slots.set i { slot with peerid := NO_PEER } }

/-- The loop of `compact` over the peers from the `i`-th new slot on: a peer
with nodes gets the next slot, starting at `prevStop`, and `prevStop` becomes
the stop of the old slot `slots[i]`; `none` where that read is out of range. -/
def compactLoop (slots : List Slot) :
    List Peer → List Slot → UInt64 → UInt32 → Option (List Peer × List Slot × UInt64)
  | [], newslots, prevStop, _ => some ([], newslots, prevStop)
  | p :: ps, newslots, prevStop, i =>
    if p.node_count = 0 then
      (compactLoop slots ps newslots prevStop i).map fun r => (p :: r.1, r.2)
    else
      match slots[i.toNat]? with
      | none => none
      | some old =>
        (compactLoop slots ps (newslots ++ [⟨prevStop, p.score, p.peerid⟩]) old.getStop (i + 1)).map
          fun r => ({ p with index := i } :: r.1, r.2)

/-- `compact()`, with the score it saved. -/
def compact (pm : PeerManager) : Option (PeerManager × UInt64) :=
  if pm.fragmentation = 0 then some (pm, 0)
  else
    (compactLoop pm.slots pm.peers [] 0 0).map fun r =>
      ({ pm with peers := r.1, slots := r.2.1, slotCount := r.2.2, fragmentation := 0 },
        pm.slotCount - r.2.2)

/-- The new slots start at 0 and then each at the stop of the slot before it in
`slots`, the old vector. -/
def StartsFromOld (slots ns : List Slot) : Prop :=
  ∀ k (hk : k < ns.length), ns[k].start = if k = 0 then 0 else (slots.getD (k - 1) ⟨0, 0, 0⟩).getStop

/-- The loop of `compact` takes each start from the old vector. The induction
is on the peers, with the count `i` of new slots and `prevStop`, the stop of the
old slot before the next position, as the invariant. -/
theorem compactLoop_starts (slots : List Slot) (hlen : slots.length < 2 ^ 32) :
    ∀ (ps : List Peer) (newslots : List Slot) (prevStop : UInt64) (i : UInt32) r,
      i.toNat = newslots.length →
      prevStop = (if newslots.length = 0 then 0 else (slots.getD (newslots.length - 1) ⟨0, 0, 0⟩).getStop) →
      StartsFromOld slots newslots →
      compactLoop slots ps newslots prevStop i = some r → StartsFromOld slots r.2.1
  | [], newslots, prevStop, i, r, _, _, hstarts, h => by
    rw [compactLoop, Option.some_inj] at h
    rw [← h]
    exact hstarts
  | p :: ps, newslots, prevStop, i, r, hi, hprev, hstarts, h => by
    rw [compactLoop] at h
    split at h
    · -- a peer without nodes gets no slot
      obtain ⟨r', hr', rfl⟩ := Option.map_eq_some_iff.mp h
      exact compactLoop_starts slots hlen ps newslots prevStop i r' hi hprev hstarts hr'
    · split at h
      · cases h
      · rename_i old hold
        obtain ⟨r', hr', rfl⟩ := Option.map_eq_some_iff.mp h
        have hilt : i.toNat < slots.length := by
          by_contra hge
          rw [List.getElem?_eq_none (by omega)] at hold
          cases hold
        have hold' : slots.getD newslots.length ⟨0, 0, 0⟩ = old := by
          rw [List.getD_eq_getElem?_getD, ← hi, hold, Option.getD_some]
        refine compactLoop_starts slots hlen ps _ _ (i + 1) r' ?_ ?_ ?_ hr'
        · rw [UInt32.toNat_add, UInt32.toNat_one, List.length_append, List.length_singleton, hi,
            Nat.mod_eq_of_lt (by omega)]
        · rw [List.length_append, List.length_singleton, if_neg (Nat.succ_ne_zero _),
            Nat.add_sub_cancel, hold']
        · -- the slot just built starts at `prevStop`
          intro k hk
          rw [List.length_append, List.length_singleton] at hk
          rcases Nat.lt_or_ge k newslots.length with hlt | hge
          · rw [List.getElem_append_left hlt]
            exact hstarts k hlt
          · obtain rfl : k = newslots.length := by omega
            rw [List.getElem_append_right (Nat.le_refl _)]
            simpa using hprev

/-- After `compact` the slots start from the old vector: the first at 0, each
next one at the stop of the old slot before its position rather than at the
stop of the new slot before it; the fragmentation is cleared and the saved
score is the drop of `slotCount`. -/
theorem compact_starts {pm pm' : PeerManager} {saved : UInt64} (hlen : pm.slots.length < 2 ^ 32)
    (hfrag : pm.fragmentation ≠ 0) (h : pm.compact = some (pm', saved)) :
    StartsFromOld pm.slots pm'.slots ∧ pm'.fragmentation = 0 ∧ saved = pm.slotCount - pm'.slotCount := by
  rw [compact, if_neg hfrag] at h
  obtain ⟨r, hr, hpm⟩ := Option.map_eq_some_iff.mp h
  obtain ⟨rfl, rfl⟩ := Prod.ext_iff.mp hpm
  refine ⟨?_, rfl, rfl⟩
  exact compactLoop_starts pm.slots hlen pm.peers [] 0 0 r rfl rfl
    (fun k hk => absurd hk (Nat.not_lt_zero _)) hr

/-- Three peers of scores 10, 20 and 30, the first with its slot freed: after
`compact` the slots start from the old vector, the fragmentation of 10 is
cleared, and the saving is the drop of `slotCount` from 60 to 30. -/
theorem compact_starts_freedSlot :
    let pm : PeerManager :=
      ⟨[⟨0, 0, 0, 10⟩, ⟨1, 1, 1, 20⟩, ⟨2, 2, 1, 30⟩],
        [⟨0, 10, 0xffffffff⟩, ⟨10, 20, 1⟩, ⟨30, 30, 2⟩], 60, 10, 50⟩
    ∃ pm' saved, pm.compact = some (pm', saved) ∧ pm'.slots = [⟨0, 20, 1⟩, ⟨10, 30, 2⟩] ∧
      StartsFromOld pm.slots pm'.slots ∧ pm'.fragmentation = 0 ∧ saved = pm.slotCount - pm'.slotCount := by
  intro pm
  have h : pm.compact =
      some (⟨[⟨0, 0, 0, 10⟩, ⟨1, 0, 1, 20⟩, ⟨2, 1, 1, 30⟩], [⟨0, 20, 1⟩, ⟨10, 30, 2⟩], 30, 0, 50⟩, 30) := by
    decide
  exact ⟨_, _, h, rfl, compact_starts (by decide) (by decide) h⟩

/-- Three peers of scores 10, 20 and 30 get a node each, the first loses it,
and `compact` runs: the second new slot starts at 10, the stop of the old first
slot, inside the new first slot `[0, 20)`, and `slotCount` becomes 30 while the
live peers score 50. -/
theorem compact_reads_old_slots :
    (((((⟨[⟨0, 0xffffffff, 0, 10⟩, ⟨1, 0xffffffff, 0, 20⟩, ⟨2, 0xffffffff, 0, 30⟩], [], 0, 0, 0⟩ :
        PeerManager).addNodeToPeer 0).bind (·.addNodeToPeer 1)).bind (·.addNodeToPeer 2)).bind
        (·.removeNodeFromPeer 0 1)).bind compact =
      some (⟨[⟨0, 0, 0, 10⟩, ⟨1, 0, 1, 20⟩, ⟨2, 1, 1, 30⟩], [⟨0, 20, 1⟩, ⟨10, 30, 2⟩], 30, 0, 50⟩, 30) := by
  decide

end PeerManager

end Avalanche

end BitcoinAbc
