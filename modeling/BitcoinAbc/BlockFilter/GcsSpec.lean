import Mathlib
import BitcoinAbc.BlockFilter.GcsFilter

/-!
# What a Golomb-coded set stores, and what a match answers

The bits a filter writes after its count are `riceCodes`: the Golomb-Rice
code of the distance of each sorted hash from the one before. The reader
takes them back one code at a time (`decodeLoop_bits`), and `MatchInternal`
adds the distances up again, so that it meets every hash of the set in
order (`matchLoop_eq`); passing over the sorted queries below each value
(`skipBelow_eq`), it answers whether the two lists share a value.

- `ofElements_eq`: what `GCSFilter(params, elements)` writes;
- `GCSFilter_ofEncoded_ofElements`: the encoding is accepted back, as long
  as the count passes the range check of `ReadCompactSize`;
- `GCSFilter_Match_ofElements`: `Match` and `MatchAny` answer whether a
  hash of the query is a hash of the set: every element matches, and any
  other string only through a hash collision in `[0, N * M)`;
- `GCSFilter_MatchInternal_ofEncoded`: on a filter the decoding constructor
  accepted, such as one received from a peer, `MatchInternal` neither fails
  its `assert` nor runs out of codes.
-/

namespace BitcoinAbc

namespace BlockFilter

open Serialize BitString

/-- The bits the filter holds for sorted hashes after `last`: the
Golomb-Rice code of each distance from the one before. -/
def riceCodes (P : Nat) : UInt64 → List UInt64 → List Bool
  | _, [] => []
  | last, v :: vs => riceCode P (v - last).toNat ++ riceCodes P v vs

/-! ## Writing and reading the codes -/

section Codes

variable {P : UInt8}

theorem encodeLoop_bits (hP : P.toNat < 64) :
    ∀ (vs : List UInt64) (last : UInt64) (w : BitStreamWriter), w.WF →
      ∃ w', encodeLoop P last vs w = .ok w' ∧ w'.bits = w.bits ++ riceCodes P.toNat last vs ∧ w'.WF ∧
        w.m_ostream <+: w'.m_ostream := by
  intro vs
  induction vs with
  | nil =>
    intro last w hw
    exact ⟨w, rfl, by simp [riceCodes], hw, List.prefix_refl _⟩
  | cons v vs ih =>
    intro last w hw
    obtain ⟨w1, hw1, hbits1, hwf1, hpre1⟩ := GolombRiceEncode_bits hw hP (v - last)
    obtain ⟨w2, hw2, hbits2, hwf2, hpre2⟩ := ih v w1 hwf1
    refine ⟨w2, ?_, ?_, hwf2, hpre1.trans hpre2⟩
    · simp only [encodeLoop, hw1, bind, Except.bind, hw2]
    · rw [hbits2, hbits1, riceCodes, List.append_assoc]

theorem decodeLoop_bits (hP : P.toNat < 64) :
    ∀ (vs : List UInt64) (last : UInt64) (r : BitStreamReader) (rest : List Bool),
      r.bits = riceCodes P.toNat last vs ++ rest → ∃ r', decodeLoop P vs.length r = .ok r' ∧ r'.bits = rest := by
  intro vs
  induction vs with
  | nil =>
    intro last r rest h
    exact ⟨r, rfl, by simpa [riceCodes] using h⟩
  | cons v vs ih =>
    intro last r rest h
    rw [riceCodes, List.append_assoc] at h
    obtain ⟨r1, hr1, hbits1⟩ := GolombRiceDecode_bits hP (v - last) h
    obtain ⟨r2, hr2, hbits2⟩ := ih v r1 rest hbits1
    refine ⟨r2, ?_, hbits2⟩
    simp only [List.length_cons, decodeLoop, hr1, bind, Except.bind, hr2]

/-- Codes followed by less than a byte of padding are read to the end of
the stream. -/
theorem decodeLoop_tail (hP : P.toNat < 64) {tail : List UInt8} {vs : List UInt64} {last : UInt64} {pad : Nat}
    (htail : ofBytes tail = riceCodes P.toNat last vs ++ List.replicate pad false) (hpad : pad < 8) :
    ∃ r', decodeLoop P vs.length (BitStreamReader.ofStream tail) = .ok r' ∧ r'.m_istream = [] := by
  obtain ⟨r', hr', hbits⟩ := decodeLoop_bits hP vs last _ _ ((BitStreamReader.bits_ofStream tail).trans htail)
  refine ⟨r', hr', List.eq_nil_of_length_eq_zero ?_⟩
  have hlen := congrArg List.length hbits
  simp only [BitStreamReader.length_bits, List.length_replicate] at hlen
  omega

end Codes

/-! ## Matching -/

section Match

/-- `skipBelow` passes over the queries below `value` and looks at the next
one. -/
theorem skipBelow_eq (value : UInt64) :
    ∀ qs : List UInt64, ∃ pre rest, qs = pre ++ rest ∧ (∀ q ∈ pre, q < value) ∧ (∀ q ∈ rest.head?, value ≤ q) ∧
      skipBelow value qs = match rest with
        | [] => .error false
        | q :: _ => if q = value then .error true else .ok rest
  | [] => ⟨[], [], rfl, by simp, by simp, rfl⟩
  | q :: qs => by
    by_cases hq : q = value
    · exact ⟨[], q :: qs, rfl, by simp, by simp [hq], by simp [skipBelow, hq]⟩
    · by_cases hlt : q > value
      · exact ⟨[], q :: qs, rfl, by simp, by simp [UInt64.le_of_lt hlt], by simp [skipBelow, hq, hlt]⟩
      · obtain ⟨pre, rest, hqs, hpre, hhead, hskip⟩ := skipBelow_eq value qs
        refine ⟨q :: pre, rest, by rw [hqs, List.cons_append], ?_, hhead, ?_⟩
        · intro x hx
          rcases List.mem_cons.mp hx with rfl | hx
          · exact UInt64.lt_of_le_of_ne (UInt64.not_lt.mp hlt) hq
          · exact hpre x hx
        · rw [skipBelow, if_neg hq, if_neg hlt, hskip]

/-- `MatchInternal`'s loop meets the sorted values of the set, and answers
whether one of them is a query. The induction is on the values; the
queries passed over are below the value reached, hence below all values
after it. -/
theorem matchLoop_eq {P : UInt8} (hP : P.toNat < 64) :
    ∀ (vs : List UInt64) (last : UInt64) (qs : List UInt64) (r : BitStreamReader) (rest : List Bool),
      vs.Pairwise (· ≤ ·) → qs.Pairwise (· ≤ ·) → r.bits = riceCodes P.toNat last vs ++ rest →
      matchLoop P vs.length last qs r = .ok (vs.any fun v => decide (v ∈ qs)) := by
  intro vs
  induction vs with
  | nil => intro last qs r rest _ _ _; rfl
  | cons v vs ih =>
    intro last qs r rest hvs hqs h
    rw [riceCodes, List.append_assoc] at h
    obtain ⟨r1, hr1, hbits1⟩ := GolombRiceDecode_bits hP (v - last) h
    obtain ⟨hv, hvs'⟩ := List.pairwise_cons.mp hvs
    obtain ⟨pre, rest', hsplit, hpre, hhead, hskip⟩ := skipBelow_eq v qs
    simp only [List.length_cons, matchLoop, hr1, bind, Except.bind]
    -- the value reached is `v` itself
    rw [show last + (v - last) = v by rw [UInt64.add_comm, UInt64.sub_add_cancel], hskip]
    have hnotpre : ∀ x, v ≤ x → x ∉ pre := fun x hx hmem => absurd (hpre x hmem) (UInt64.not_lt.mpr hx)
    cases rest' with
    | nil =>
      -- every query is below `v`, hence below every value
      have hnone : (v :: vs).any (fun x => decide (x ∈ qs)) = false := by
        rw [List.any_eq_false]
        intro x hx
        have hvx : v ≤ x := by
          rcases List.mem_cons.mp hx with rfl | hx
          · exact UInt64.le_refl _
          · exact hv x hx
        simpa [hsplit] using hnotpre x hvx
      rw [hnone]
      rfl
    | cons q rest' =>
      have hq : v ≤ q := hhead q rfl
      dsimp only
      by_cases hqv : q = v
      · rw [if_pos hqv]
        have hmem : v ∈ qs := by rw [hsplit, hqv]; simp
        simp [hmem]
      · rw [if_neg hqv]
        dsimp only
        have hgt : v < q := UInt64.lt_of_le_of_ne hq (Ne.symm hqv)
        have hrest : (q :: rest').Pairwise (· ≤ ·) := (List.pairwise_append.mp (hsplit ▸ hqs)).2.1
        -- `v` is not a query: those before `q` are below it, those from `q` on above it
        have hvq : v ∉ qs := by
          rw [hsplit]
          intro hmem
          rcases List.mem_append.mp hmem with hm | hm
          · exact hnotpre v (UInt64.le_refl _) hm
          · rcases List.mem_cons.mp hm with rfl | hm
            · exact hqv rfl
            · exact absurd (UInt64.lt_of_lt_of_le hgt ((List.pairwise_cons.mp hrest).1 v hm)) (UInt64.lt_irrefl v)
        -- and a later value is a query exactly when it is one from `q` on
        have hlater : ∀ x ∈ vs, (x ∈ qs ↔ x ∈ q :: rest') := by
          intro x hx
          rw [hsplit, List.mem_append]
          exact ⟨fun h => h.resolve_left (hnotpre x (hv x hx)), Or.inr⟩
        have hany : (vs.any fun x => decide (x ∈ q :: rest')) = vs.any fun x => decide (x ∈ qs) := by
          rw [Bool.eq_iff_iff, List.any_eq_true, List.any_eq_true]
          exact exists_congr fun x => and_congr_right fun hx => by simp [hlater x hx]
        rw [ih v (q :: rest') r1 rest hvs' hrest hbits1, List.any_cons, decide_eq_false hvq, Bool.false_or, hany]

end Match

/-! ## The hashed set -/

section Hashed

variable (params : Params) (F : UInt64) (elements : List (List UInt8))

@[simp] theorem length_BuildHashedSet : (BuildHashedSet params F elements).length = elements.length := by
  rw [BuildHashedSet, List.length_mergeSort, List.length_map]

theorem BuildHashedSet_sorted : (BuildHashedSet params F elements).Pairwise (· ≤ ·) :=
  List.pairwise_mergeSort' _ _

/-- `std::sort` keeps the hashes, so a test over them is one over the
elements. -/
theorem any_BuildHashedSet (p : UInt64 → Bool) :
    (BuildHashedSet params F elements).any p = elements.any fun e => p (HashToRange params F e) := by
  rw [BuildHashedSet, (List.mergeSort_perm _ _).any_eq, List.any_map]
  rfl

theorem mem_BuildHashedSet {h : UInt64} :
    h ∈ BuildHashedSet params F elements ↔ ∃ e ∈ elements, HashToRange params F e = h := by
  rw [BuildHashedSet, (List.mergeSort_perm _ _).mem_iff, List.mem_map]

end Hashed

/-! ## The filter of a set of elements -/

section Build

variable {params : Params} {elements : ElementSet} {f : GCSFilter}

/-- A count below `2^32` is kept by `static_cast<uint32_t>`. -/
theorem toNat_toUInt32_of_lt {n : Nat} (hN : n < 2 ^ 32) : n.toUInt32.toNat = n := by
  simp only [Nat.toUInt32, UInt32.toNat_ofNat']
  exact Nat.mod_eq_of_lt hN

/-- The filter of a set with fewer than `2^32` elements, with its encoding
still to say. -/
def ofElementsWith (params : Params) (elements : ElementSet) (m_encoded : List UInt8) : GCSFilter :=
  ⟨params, elements.elems.length.toUInt32, elements.elems.length.toUInt32.toUInt64 * params.m_M.toUInt64, m_encoded⟩

/-- What `GCSFilter(params, elements)` writes: the count, then the codes of
the distances of the sorted hashes, padded with zeros to a byte. -/
theorem ofElements_eq (hP : params.m_P.toNat < 64) (hN : elements.elems.length < 2 ^ 32) :
    ∃ tail pad, GCSFilter.ofElements params elements =
        .ok (ofElementsWith params elements (WriteCompactSize elements.elems.length.toUInt32.toUInt64 ++ tail)) ∧
      ofBytes tail = riceCodes params.m_P.toNat 0
        (BuildHashedSet params (ofElementsWith params elements []).m_F elements.elems) ++ List.replicate pad false ∧
      pad < 8 := by
  have hm := toNat_toUInt32_of_lt hN
  by_cases he : elements.elems = []
  · refine ⟨[], 0, ?_, by simp [he, BuildHashedSet, riceCodes], by norm_num⟩
    simp [GCSFilter.ofElements, he, ofElementsWith]
  · obtain ⟨hstart, hwf⟩ := BitStreamWriter.bits_ofStream (WriteCompactSize elements.elems.length.toUInt32.toUInt64)
    obtain ⟨w, hw, hbits, hwf', hpre⟩ := encodeLoop_bits hP
      (BuildHashedSet params (ofElementsWith params elements []).m_F elements.elems) 0 _ hwf
    obtain ⟨hflush, hbytes, hpre'⟩ := Flush_bits hwf'
    obtain ⟨tail, htail⟩ := hpre.trans hpre'
    refine ⟨tail, (8 - w.m_offset.val) % 8, ?_, ?_, Nat.mod_lt _ (by norm_num)⟩
    · simp only [ofElementsWith] at hw
      simp only [BitStreamWriter.ofStream] at htail
      simp [GCSFilter.ofElements, hm, he, ofElementsWith, hw, ← htail]
    · -- the flushed bytes are the count's, then the codes and the padding
      have hall := hbytes.symm.trans hflush
      rw [← htail, ofBytes_append, hbits, hstart, List.append_assoc] at hall
      exact List.append_cancel_left hall

/-- A filter built from a set has fewer than `2^32` elements. -/
theorem length_lt_of_ofElements (hf : GCSFilter.ofElements params elements = .ok f) :
    elements.elems.length < 2 ^ 32 := by
  by_contra hN
  -- the count wraps, and the guard throws
  have hne : elements.elems.length.toUInt32.toNat ≠ elements.elems.length := by
    have := UInt32.toNat_lt elements.elems.length.toUInt32
    omega
  rw [GCSFilter.ofElements] at hf
  dsimp only at hf
  rw [if_pos hne] at hf
  cases hf

/-- A built filter is the one `ofElements_eq` describes. -/
theorem ofElements_eq_of_ok (hP : params.m_P.toNat < 64) (hf : GCSFilter.ofElements params elements = .ok f) :
    ∃ tail pad, f = ofElementsWith params elements (WriteCompactSize elements.elems.length.toUInt32.toUInt64 ++ tail) ∧
      ofBytes tail = riceCodes params.m_P.toNat 0
        (BuildHashedSet params (ofElementsWith params elements []).m_F elements.elems) ++ List.replicate pad false ∧
      pad < 8 := by
  obtain ⟨tail, pad, hf', htail, hpad⟩ := ofElements_eq hP (length_lt_of_ofElements hf)
  rw [hf, Except.ok.injEq] at hf'
  exact ⟨tail, pad, hf', htail, hpad⟩

/-- A count below `2^32` is read back, when it passes the range check. -/
theorem ReadCompactSize_count {n : Nat} (hN : n < 2 ^ 32) (tail : List UInt8) :
    ReadCompactSize (WriteCompactSize n.toUInt32.toUInt64 ++ tail) true =
      if n ≤ MAX_SIZE then .ok (n.toUInt32.toUInt64, tail) else .error "ReadCompactSize(): size too large" := by
  rw [ReadCompactSize_write, UInt32.toNat_toUInt64, toNat_toUInt32_of_lt hN, Bool.true_and]
  by_cases hmax : n ≤ MAX_SIZE
  · rw [if_neg (by simpa using hmax), if_pos hmax]
  · rw [if_pos (by simpa using hmax), if_neg hmax]

/-- The decoding constructor accepts what the building one writes, as long
as the count passes the range check of `ReadCompactSize`. -/
theorem ofEncoded_ofElementsWith (hP : params.m_P.toNat < 64) (hN : elements.elems.length < 2 ^ 32)
    {tail : List UInt8} {pad : Nat} (htail : ofBytes tail = riceCodes params.m_P.toNat 0
      (BuildHashedSet params (ofElementsWith params elements []).m_F elements.elems) ++ List.replicate pad false)
    (hpad : pad < 8) :
    GCSFilter.ofEncoded params (WriteCompactSize elements.elems.length.toUInt32.toUInt64 ++ tail) =
      if elements.elems.length ≤ MAX_SIZE then
        .ok (ofElementsWith params elements (WriteCompactSize elements.elems.length.toUInt32.toUInt64 ++ tail))
      else .error "ReadCompactSize(): size too large" := by
  rw [GCSFilter.ofEncoded, ReadCompactSize_count hN]
  by_cases hmax : elements.elems.length ≤ MAX_SIZE
  · -- the `N` codes are read, and the padding ends the stream
    obtain ⟨r', hr', hempty⟩ := decodeLoop_tail hP htail hpad
    rw [length_BuildHashedSet] at hr'
    have hmod : elements.elems.length % 4294967296 = elements.elems.length := Nat.mod_eq_of_lt hN
    simp [hmax, UInt32.toUInt32_toUInt64, hmod, hr', hempty, ofElementsWith]
  · rw [if_neg hmax, if_neg hmax]
    rfl

theorem GCSFilter_ofEncoded_ofElements (hP : params.m_P.toNat < 64) (hf : GCSFilter.ofElements params elements = .ok f) :
    GCSFilter.ofEncoded params f.m_encoded =
      if elements.elems.length ≤ MAX_SIZE then .ok f else .error "ReadCompactSize(): size too large" := by
  obtain ⟨tail, pad, rfl, htail, hpad⟩ := ofElements_eq_of_ok hP hf
  exact ofEncoded_ofElementsWith hP (length_lt_of_ofElements hf) htail hpad

/-- The BASIC parameters over the set of `[1]`, `[2, 3]` and `[4, 5, 6]`: the
filter of three elements is built, and decoded back to itself. -/
theorem GCSFilter_ofEncoded_ofElements_threeElements :
    ∃ f, GCSFilter.ofElements ⟨1, 2, 19, 784931⟩ (((ElementSet.empty.emplace [1]).emplace [2, 3]).emplace [4, 5, 6]) = .ok f ∧
      f.m_N = 3 ∧ GCSFilter.ofEncoded ⟨1, 2, 19, 784931⟩ f.m_encoded = .ok f := by
  obtain ⟨tail, pad, hf, -, -⟩ := @ofElements_eq ⟨1, 2, 19, 784931⟩ (((ElementSet.empty.emplace [1]).emplace [2, 3]).emplace [4, 5, 6]) (by decide) (by decide)
  have h := GCSFilter_ofEncoded_ofElements (by decide) hf
  rw [if_pos (by decide)] at h
  exact ⟨_, hf, rfl, h⟩

theorem params_of_ofElements (hP : params.m_P.toNat < 64) (hf : GCSFilter.ofElements params elements = .ok f) :
    f.m_params = params := by
  obtain ⟨tail, pad, rfl, -, -⟩ := ofElements_eq_of_ok hP hf
  rfl

/-- `MatchInternal` on a built filter answers whether a hash of the set is
one of the sorted queries. -/
theorem MatchInternal_ofElements (hP : params.m_P.toNat < 64) (hf : GCSFilter.ofElements params elements = .ok f)
    (hmax : elements.elems.length ≤ MAX_SIZE) {qs : List UInt64} (hqs : qs.Pairwise (· ≤ ·)) :
    f.MatchInternal qs = .ok ((BuildHashedSet params f.m_F elements.elems).any fun v => decide (v ∈ qs)) := by
  have hN := length_lt_of_ofElements hf
  obtain ⟨tail, pad, rfl, htail, -⟩ := ofElements_eq_of_ok hP hf
  have hloop := matchLoop_eq hP _ 0 qs _ _ (BuildHashedSet_sorted _ _ _) hqs
    ((BitStreamReader.bits_ofStream tail).trans htail)
  rw [length_BuildHashedSet, ← toNat_toUInt32_of_lt hN] at hloop
  rw [GCSFilter.MatchInternal, ofElementsWith, ReadCompactSize_count hN, if_pos hmax, Except.ok_bind]
  dsimp only
  rw [if_neg (not_not.mpr rfl)]
  exact hloop

/-- Every element of the set matches its filter. -/
theorem Match_ofElements_of_mem (hP : params.m_P.toNat < 64) (hf : GCSFilter.ofElements params elements = .ok f)
    (hmax : elements.elems.length ≤ MAX_SIZE) {element : List UInt8} (he : element ∈ elements.elems) :
    f.Match element = .ok true := by
  rw [GCSFilter.Match, MatchInternal_ofElements hP hf hmax (List.pairwise_singleton _ _), List.any_eq_true.mpr]
  -- the element's own hash is in the hashed set
  refine ⟨HashToRange f.m_params f.m_F element, ?_, by simp⟩
  rw [params_of_ofElements hP hf]
  exact (mem_BuildHashedSet _ _ _).mpr ⟨element, he, rfl⟩

theorem GCSFilter_Match_ofElements (hP : params.m_P.toNat < 64) (hf : GCSFilter.ofElements params elements = .ok f)
    (hmax : elements.elems.length ≤ MAX_SIZE) (element : List UInt8) (query : ElementSet) :
    f.Match element = .ok (elements.elems.any fun e => decide (HashToRange params f.m_F e = HashToRange params f.m_F element)) ∧
      f.MatchAny query = .ok (elements.elems.any fun e =>
        query.elems.any fun e' => decide (HashToRange params f.m_F e = HashToRange params f.m_F e')) := by
  have hparams := params_of_ofElements hP hf
  constructor
  · rw [GCSFilter.Match, hparams, MatchInternal_ofElements hP hf hmax (List.pairwise_singleton _ _),
      any_BuildHashedSet]
    simp only [List.mem_singleton]
  · rw [GCSFilter.MatchAny, hparams, MatchInternal_ofElements hP hf hmax (BuildHashedSet_sorted _ _ _),
      any_BuildHashedSet]
    -- a hash is among the sorted queries when it is the hash of a query
    have hq : ∀ e, decide (HashToRange params f.m_F e ∈ BuildHashedSet params f.m_F query.elems) =
        query.elems.any fun e' => decide (HashToRange params f.m_F e = HashToRange params f.m_F e') := by
      intro e
      rw [Bool.eq_iff_iff, decide_eq_true_iff, mem_BuildHashedSet, List.any_eq_true]
      simp only [decide_eq_true_eq]
      exact exists_congr fun e' => and_congr_right fun _ => eq_comm
    simp only [hq]

/-- The filter of `[1]`, `[2, 3]` and `[4, 5, 6]` under the BASIC parameters:
`[2, 3]` matches and `[7]` does not, and of two queries the one that holds
`[4, 5, 6]` matches while `[7]` with `[8]` does not. -/
theorem GCSFilter_Match_ofElements_threeElements :
    ∃ f, GCSFilter.ofElements ⟨1, 2, 19, 784931⟩ (((ElementSet.empty.emplace [1]).emplace [2, 3]).emplace [4, 5, 6]) = .ok f ∧
      f.Match [2, 3] = .ok true ∧ f.Match [7] = .ok false ∧
      f.MatchAny ((ElementSet.empty.emplace [7]).emplace [4, 5, 6]) = .ok true ∧
      f.MatchAny ((ElementSet.empty.emplace [7]).emplace [8]) = .ok false := by
  obtain ⟨tail, pad, hf, -, -⟩ := @ofElements_eq ⟨1, 2, 19, 784931⟩
    (((ElementSet.empty.emplace [1]).emplace [2, 3]).emplace [4, 5, 6]) (by decide) (by decide)
  generalize hfe : ofElementsWith _ _ _ = f at hf
  -- the range is the count times `M`, whatever the encoding
  have hF : f.m_F = 3 * 784931 := by rw [← hfe]; rfl
  have hin := GCSFilter_Match_ofElements (by decide) hf (by decide) [2, 3]
    ((ElementSet.empty.emplace [7]).emplace [4, 5, 6])
  have hout := GCSFilter_Match_ofElements (by decide) hf (by decide) [7]
    ((ElementSet.empty.emplace [7]).emplace [8])
  refine ⟨f, hf, ?_, ?_, ?_, ?_⟩
  · rw [hin.1, hF]; decide
  · rw [hout.1, hF]; decide
  · rw [hin.2, hF]; decide
  · rw [hout.2, hF]; decide

end Build

/-! ## Filters received from peers -/

section Received

variable {params : Params} {encoded_filter : List UInt8} {f : GCSFilter}

/-- The codes the constructor has read are there for `MatchInternal`,
which reads at most as many. -/
theorem matchLoop_ok_of_decodeLoop {P : UInt8} :
    ∀ (n : Nat) (value : UInt64) (qs : List UInt64) (r r' : BitStreamReader),
      decodeLoop P n r = .ok r' → ∃ b, matchLoop P n value qs r = .ok b
  | 0, _, _, _, _, _ => ⟨false, rfl⟩
  | n + 1, value, qs, r, r', h => by
    obtain ⟨⟨delta, r1⟩, hd, h1⟩ := Except.bind_eq_ok.mp h
    rw [matchLoop, hd, Except.ok_bind]
    dsimp only
    cases skipBelow (value + delta) qs with
    | error b => exact ⟨b, rfl⟩
    | ok qs' => exact matchLoop_ok_of_decodeLoop n _ qs' r1 r' h1

theorem GCSFilter_MatchInternal_ofEncoded (h : GCSFilter.ofEncoded params encoded_filter = .ok f)
    (element_hashes : List UInt64) : ∃ b, f.MatchInternal element_hashes = .ok b := by
  rw [GCSFilter.ofEncoded] at h
  obtain ⟨⟨N, stream⟩, hN, h⟩ := Except.bind_eq_ok.mp h
  dsimp only at h
  obtain ⟨hfits, h⟩ := Except.ite_throw_bind_eq_ok h
  obtain ⟨bitreader, hdecode, h⟩ := Except.bind_eq_ok.mp h
  obtain ⟨-, h⟩ := Except.ite_throw_bind_eq_ok h
  -- the filter keeps the encoding it was given, and its count
  rw [← Except.pure_eq_ok.mp h, GCSFilter.MatchInternal, hN, Except.ok_bind]
  dsimp only
  rw [if_neg fun hne => hfits (Ne.symm hne)]
  exact matchLoop_ok_of_decodeLoop _ 0 element_hashes _ _ hdecode

/-- The encoding of the filter of `[1]`, `[2, 3]` and `[4, 5, 6]`, received
under the BASIC parameters: it is accepted with three codes, and
`MatchInternal` returns on the queries `5` and `9`. -/
theorem GCSFilter_MatchInternal_ofEncoded_threeElements :
    ∃ encoded_filter f, GCSFilter.ofEncoded ⟨1, 2, 19, 784931⟩ encoded_filter = .ok f ∧ f.m_N = 3 ∧
      ∃ b, f.MatchInternal [5, 9] = .ok b := by
  obtain ⟨tail, pad, -, htail, hpad⟩ := @ofElements_eq ⟨1, 2, 19, 784931⟩ (((ElementSet.empty.emplace [1]).emplace [2, 3]).emplace [4, 5, 6]) (by decide) (by decide)
  have h := ofEncoded_ofElementsWith (by decide) (by decide) htail hpad
  rw [if_pos (by decide)] at h
  exact ⟨_, _, h, rfl, GCSFilter_MatchInternal_ofEncoded h [5, 9]⟩

end Received

end BlockFilter

end BitcoinAbc
