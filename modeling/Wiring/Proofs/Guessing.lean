import Mathlib
import Wiring.Options.Loading

/-!
# Texts taken for values

The text of a variable is taken for a truth value or a number if it looks like one
(`Environment.valueOf`), and what it is taken for is converted to the type of its option.  For
truth values and severities the way by a value does not show: a text means what it would mean as a
text (`toBool?_valueOf`, `toSeverity?_valueOf`), since no word that stands for one of them looks like
a number (`valueOf_of_isWord`).

For a count it does not show either, except that one of 64 bits is rounded to a multiple of 2048
(`toWord?_valueOf`, `rounded_eq_self_iff`), as is one that a document writes (`toWord?_ofNat`).  For a
destination it shows wherever a number can be written in several ways: what arrives is the text of
the value (`reread`).
-/

namespace Wiring

/-! ### Lower case of plain letters -/

/-- What holds of the first 128 characters holds of each plain one. -/
theorem of_ascii {p : Char → Prop} (h : ∀ n < 128, p (Char.ofNat n)) {c : Char}
    (hc : c.toNat < 128) : p c := by
  have found := h c.toNat hc
  rwa [Char.ofNat_toNat] at found

theorem lowerChar_of_ascii {c : Char} (h : c.toNat < 128) : lowerChar c = [c.toLower] :=
  of_ascii (p := fun c => lowerChar c = [c.toLower]) (by decide +kernel) h

theorem ne_sigma_of_ascii {c : Char} (h : c.toNat < 128) : c ≠ 'Σ' := by
  rintro rfl
  exact absurd h (by decide)

theorem lowerBehind_of_ascii {cs : List Char} (h : ∀ c ∈ cs, c.toNat < 128) (before : List Char) :
    lowerBehind before cs = cs.map Char.toLower := by
  induction cs generalizing before with
  | nil => rfl
  | cons c rest ih =>
      obtain ⟨hc, hr⟩ := List.forall_mem_cons.mp h
      rw [lowerBehind, if_neg (fun he => ne_sigma_of_ascii hc he.1), lowerChar_of_ascii hc, ih hr]
      rfl

theorem lowerText_of_ascii {s : String} (h : ∀ c ∈ s.toList, c.toNat < 128) :
    lowerText s = String.ofList (s.toList.map Char.toLower) := by
  rw [lowerText, lowerBehind_of_ascii h]

/-- What has a plain small letter is a plain letter. -/
theorem ascii_of_toLower {c : Char} (h : c.toLower.toNat < 128) : c.toNat < 128 := by
  rw [Char.toLower] at h
  split at h
  · rename_i hc
    have : c.val ≤ 'Z'.val := hc.2
    have := UInt32.le_iff_toNat_le.mp this
    exact Nat.lt_of_le_of_lt this (by decide)
  · exact h

/-- A text whose small letters are plain is in lower case what these are. -/
theorem lowerText_of_map_toLower {s : String} {word : List Char}
    (h : s.toList.map Char.toLower = word) (hw : word.all (·.toNat < 128) = true) :
    lowerText s = String.ofList word := by
  rw [lowerText_of_ascii, h]
  intro c hc
  have plain := List.all_eq_true.mp hw _ (h ▸ List.mem_map_of_mem hc)
  exact ascii_of_toLower (of_decide_eq_true plain)

/-! ### Words -/

/-- Whether a number may begin with a character. -/
def opensNumber (c : Char) : Bool := c == '+' || c == '-' || c == '.' || c.isDigit

/-- Whether a text in lower case is taken for no truth value and no number. -/
def isWord (s : String) : Bool :=
  !(["true", "false", "inf", "infinity", "nan"].contains s || s.toList.head?.any opensNumber)

theorem ascii_of_opensNumber {c : Char} (h : opensNumber c = true) : c.toNat < 128 := by
  simp only [opensNumber, Bool.or_eq_true, beq_iff_eq] at h
  rcases h with ((rfl | rfl) | rfl) | hd
  · decide
  · decide
  · decide
  · simp only [Char.isDigit, Bool.and_eq_true, decide_eq_true_eq] at hd
    have := UInt32.le_iff_toNat_le.mp hd.2
    exact Nat.lt_of_le_of_lt this (by decide)

theorem toLower_of_opensNumber {c : Char} (h : opensNumber c = true) : c.toLower = c :=
  of_ascii (p := fun c => opensNumber c = true → c.toLower = c) (by decide +kernel)
    (ascii_of_opensNumber h) h

/-- A text that begins as a number begins so in lower case. -/
theorem not_isWord_of_opensNumber {s : String} {c : Char} {rest : List Char}
    (hs : s.toList = c :: rest) (hc : opensNumber c = true) : isWord (lowerText s) = false := by
  have plain := ascii_of_opensNumber hc
  have head : (lowerText s).toList.head? = some c := by
    rw [lowerText, String.toList_ofList, hs, lowerBehind,
      if_neg (fun he => ne_sigma_of_ascii plain he.1), lowerChar_of_ascii plain,
      toLower_of_opensNumber hc]
    rfl
  rw [isWord, head, Option.any_some, hc, Bool.or_true, Bool.not_true]

theorem spanSign_of_not_opensNumber {c : Char} {rest : List Char} (h : opensNumber c = false) :
    spanSign (c :: rest) = (false, c :: rest) := by
  simp only [opensNumber, Bool.or_eq_false_iff, beq_eq_false_iff_ne] at h
  unfold spanSign
  split
  · simp_all
  · simp_all
  · rfl

theorem not_isDigit_of_not_opensNumber {c : Char} (h : opensNumber c = false) :
    c.isDigit = false := by
  simp only [opensNumber, Bool.or_eq_false_iff] at h
  exact h.2

theorem integer?_of_isWord {s : String} (h : isWord (lowerText s) = true) : integer? s = none := by
  cases hs : s.toList with
  | nil => rw [integer?, hs]; rfl
  | cons c rest =>
      cases ho : opensNumber c with
      | true =>
          rw [not_isWord_of_opensNumber hs ho] at h
          cases h
      | false =>
          simp [integer?, hs, spanSign_of_not_opensNumber ho, digitsOnly?,
            not_isDigit_of_not_opensNumber ho]

theorem ofText?_of_isWord {s : String} (h : isWord (lowerText s) = true) :
    Binary64.ofText? s = none := by
  have unnamed : ∀ word ∈ ["inf", "infinity", "nan"], s.toList.map Char.toLower ≠ word.toList := by
    intro word hword hs
    have plain : ∀ word ∈ ["inf", "infinity", "nan"], word.toList.all (·.toNat < 128) = true := by
      decide +kernel
    have known : ∀ word ∈ ["inf", "infinity", "nan"], isWord word = false := by decide +kernel
    rw [lowerText_of_map_toLower hs (plain word hword), String.ofList_toList,
      known word hword] at h
    cases h
  cases hs : s.toList with
  | nil => rw [Binary64.ofText?, hs]; rfl
  | cons c rest =>
      cases ho : opensNumber c with
      | true =>
          rw [not_isWord_of_opensNumber hs ho] at h
          cases h
      | false =>
          rw [Binary64.ofText?, hs, spanSign_of_not_opensNumber ho]
          rw [hs] at unnamed
          have digit := not_isDigit_of_not_opensNumber ho
          have point : c ≠ '.' := by
            rintro rfl
            cases ho
          simp only [unnamed "inf" (by simp), unnamed "infinity" (by simp),
            unnamed "nan" (by simp), or_self, if_false]
          have none : spanDigits (c :: rest) = ([], c :: rest) := by
            simp [spanDigits, List.span, List.span.loop, digit]
          simp only [decimal?, none]
          rw [if_pos]
          split
          · rename_i he
            exact absurd (List.cons.inj he).1 point
          · rfl

/-- **A word is taken for a text.** -/
theorem valueOf_of_isWord {s : String} (h : isWord (lowerText s) = true) :
    Environment.valueOf s = .text s := by
  have words : lowerText s ≠ "true" ∧ lowerText s ≠ "false" := by
    constructor
    · intro he
      rw [he] at h
      exact absurd h (by decide)
    · intro he
      rw [he] at h
      exact absurd h (by decide)
  rw [Environment.valueOf, if_neg words.1, if_neg words.2, integer?_of_isWord h,
    ofText?_of_isWord h]

namespace Settings

/-! ### Truth values and severities -/

/-- The words for truth values. -/
theorem truth?_eq_some {s : String} {b : Bool} (h : truth? s = some b) :
    (lowerText s = "true" ∧ b = true ∨ lowerText s = "false" ∧ b = false) ∨
      isWord (lowerText s) = true := by
  rw [truth?] at h
  split at h
  · rename_i hw
    obtain rfl := Option.some.inj h
    rcases hw with hw | hw | hw
    · exact .inl (.inl ⟨hw, rfl⟩)
    · exact .inr (hw ▸ by decide)
    · exact .inr (hw ▸ by decide)
  · split at h
    · rename_i hw
      obtain rfl := Option.some.inj h
      rcases hw with hw | hw | hw
      · exact .inl (.inr ⟨hw, rfl⟩)
      · exact .inr (hw ▸ by decide)
      · exact .inr (hw ▸ by decide)
    · cases h

/-- What a text that is the word for a truth value is taken for. -/
theorem valueOf_of_truth? {s : String} {b : Bool} (h : truth? s = some b) :
    Environment.valueOf s = .bool b ∨ Environment.valueOf s = .text s := by
  rcases truth?_eq_some h with (⟨hw, rfl⟩ | ⟨hw, rfl⟩) | hw
  · exact .inl (by rw [Environment.valueOf, if_pos hw])
  · refine .inl ?_
    rw [Environment.valueOf, hw]
    rfl
  · exact .inr (valueOf_of_isWord hw)

/-- **A truth value means as a value what it means as a text.** -/
theorem toBool?_valueOf {s : String} {b : Bool} (h : toBool? (.text s) = some b) :
    toBool? (Environment.valueOf s) = some b := by
  have read := h
  simp only [toBool?, settle] at h
  split at h
  · rename_i hs
    subst hs
    rw [← h]
    decide +kernel
  · split at h
    · rename_i hs
      subst hs
      rw [← h]
      decide +kernel
    · rcases valueOf_of_truth? h with hv | hv
      · rw [hv]
        rfl
      · rw [hv]
        exact read

/-- **A severity means as a value what it means as a text.** -/
theorem toSeverity?_valueOf {s : String} {severity : Severity}
    (h : toSeverity? (.text s) = some severity) :
    toSeverity? (Environment.valueOf s) = some severity := by
  have word : isWord (lowerText s) = true := by
    have named := List.find?_some h
    rw [decide_eq_true_eq] at named
    rw [← named]
    cases severity <;> decide +kernel
  rw [valueOf_of_isWord word]
  exact h

end Settings

/-! ### Counts -/

namespace Binary64

/-- Between `2^63` and `2^64` the numbers of the format are the multiples of 2048. -/
theorem toNatUpTo_ofRatio {n : Nat} (low : 2 ^ 63 ≤ n) (high : n < 2 ^ 64) (limit : Nat) :
    (ofRatio false n 1).toNatUpTo limit = min (roundHalfEven n 2048 * 2048) limit := by
  have positive : n ≠ 0 := by omega
  have log : n.log2 = 63 := (Nat.log2_eq_iff positive).mpr ⟨low, high⟩
  have guess : max ((n.log2 : Int) - (1 : Nat).log2 - 53) (-1074) = 10 := by
    rw [log]
    decide
  have wide : scaled n 1 10 = (n, 1024) := rfl
  have narrow : scaled n 1 (10 + 1) = (n, 2048) := rfl
  have least : leastMantissa = 2 ^ 52 := rfl
  have large : 2 * leastMantissa ≤ n / 1024 := by omega
  rw [ofRatio, if_neg positive]
  simp only [guess, wide, if_pos large, narrow]
  by_cases full : roundHalfEven n 2048 = 2 * leastMantissa
  · have whole : ratio leastMantissa 12 = (leastMantissa * 4096, 1) := rfl
    have small : ¬ (971 : Int) < 10 + 1 + 1 := by decide
    simp only [full, if_true, if_neg small, toNatUpTo, Bool.false_eq_true, if_false]
    rw [show ((10 : Int) + 1 + 1) = 12 from rfl, whole]
    simp only
    omega
  · have whole : ratio (roundHalfEven n 2048) 11 = (roundHalfEven n 2048 * 2048, 1) := rfl
    have small : ¬ (971 : Int) < 10 + 1 := by decide
    simp only [full, if_false, if_neg small, toNatUpTo, Bool.false_eq_true]
    rw [show ((10 : Int) + 1) = 11 from rfl, whole]
    simp only
    omega

end Binary64

theorem digitsOnly?_eq_some {cs : List Char} {m : Nat} : digitsOnly? cs = some m ↔
    cs ≠ [] ∧ (∀ c ∈ cs, c.isDigit = true) ∧ natOfDigits 10 cs = m := by
  rw [digitsOnly?]
  by_cases h : cs ≠ [] ∧ cs.all Char.isDigit = true
  · rw [if_pos h, Option.some_inj]
    exact ⟨fun hm => ⟨h.1, List.all_eq_true.mp h.2, hm⟩, fun hm => hm.2.2⟩
  · rw [if_neg h]
    refine ⟨fun hm => (nomatch hm), fun hm => ?_⟩
    exact absurd ⟨hm.1, List.all_eq_true.mpr hm.2.1⟩ h

/-- A text that is a count is digits, perhaps behind a plus sign. -/
theorem digits_of_word? {s : String} {n : UInt64} (h : word? s = some n) :
    ∃ c rest, spanSign s.toList = (false, c :: rest) ∧ (∀ d ∈ c :: rest, d.isDigit = true) ∧
      natOfDigits 10 (c :: rest) = n.toNat := by
  have count : ∀ digits, ((digitsOnly? digits).bind fun m =>
      if Width.uint64.holds m then some (UInt64.ofNat m) else none) = some n →
        ∃ c rest, digits = c :: rest ∧ (∀ d ∈ c :: rest, d.isDigit = true) ∧
          natOfDigits 10 (c :: rest) = n.toNat := by
    intro digits hd
    obtain ⟨m, hm, hn⟩ := Option.bind_eq_some_iff.mp hd
    obtain ⟨hne, hall, rfl⟩ := digitsOnly?_eq_some.mp hm
    obtain ⟨c, rest, rfl⟩ := List.exists_cons_of_ne_nil hne
    refine ⟨c, rest, rfl, hall, ?_⟩
    split at hn
    · rename_i fits
      rw [Width.holds, Bool.and_eq_true] at fits
      have high : (natOfDigits 10 (c :: rest) : Int) ≤ 0xFFFFFFFFFFFFFFFF := of_decide_eq_true fits.2
      rw [← Option.some.inj hn, UInt64.toNat_ofNat', Nat.mod_eq_of_lt (by omega)]
    · cases hn
  rw [word?] at h
  split at h
  · rename_i digits hs
    obtain ⟨c, rest, rfl, hall, hn⟩ := count digits h
    exact ⟨c, rest, by rw [hs]; rfl, hall, hn⟩
  · obtain ⟨c, rest, hs, hall, hn⟩ := count _ h
    refine ⟨c, rest, ?_, hall, hn⟩
    have digit := hall c List.mem_cons_self
    rw [hs]
    unfold spanSign
    split
    · rename_i he
      obtain rfl := (List.cons.inj he).1
      cases digit
    · rename_i he
      obtain rfl := (List.cons.inj he).1
      cases digit
    · rfl

/-- A text that is a count is the integer of 64 bits with a sign that it fits. -/
theorem integer?_of_word? {s : String} {n : UInt64} (h : word? s = some n) :
    integer? s = Width.int64.fit? n.toNat := by
  obtain ⟨c, rest, hs, hall, hn⟩ := digits_of_word? h
  have digits : digitsOnly? (c :: rest) = some n.toNat :=
    digitsOnly?_eq_some.mpr ⟨List.cons_ne_nil _ _, hall, hn⟩
  simp [integer?, hs, digits, signedInt]

theorem Binary64.ofDecimal_of_lt {n : Nat} (positive : n ≠ 0) (h : n < 10 ^ 20) :
    ofDecimal false n 0 = ofRatio false n 1 := by
  have short : (Nat.toDigits 10 n).length ≤ 20 :=
    (Nat.length_toDigits_le_iff (by decide) (by decide)).mpr h
  have one : pow10 0 = 1 := rfl
  rw [ofDecimal]
  simp only [Bool.or_eq_true, decide_eq_true_eq]
  rw [if_neg (by omega), if_neg (by omega), if_pos (by omega), Int.toNat_zero, one, Nat.mul_one]

/-- A text that is a count is the number nearest to it. -/
theorem ofText?_of_word? {s : String} {n : UInt64} (h : word? s = some n)
    (positive : n.toNat ≠ 0) :
    Binary64.ofText? s = some (.ofInt n.toNat) := by
  obtain ⟨c, rest, hs, hall, hn⟩ := digits_of_word? h
  have unnamed : ∀ word ∈ ["inf", "infinity", "nan"],
      (c :: rest).map Char.toLower ≠ word.toList := by
    intro word hword he
    have letters : ∀ word ∈ ["inf", "infinity", "nan"], word.toList.head?.any Char.isDigit = false :=
      by decide +kernel
    have digit := hall c List.mem_cons_self
    have opens : opensNumber c = true := by rw [opensNumber, digit, Bool.or_true]
    have first := letters word hword
    rw [← he, List.map_cons, List.head?_cons, Option.any_some, toLower_of_opensNumber opens,
      digit] at first
    cases first
  have all : spanDigits (c :: rest) = (c :: rest, []) := by
    rw [spanDigits, List.span_eq_takeWhile_dropWhile, List.takeWhile_eq_self_iff.mpr hall,
      List.dropWhile_eq_nil_iff.mpr hall]
  rw [Binary64.ofText?, hs]
  simp only [unnamed "inf" (by simp), unnamed "infinity" (by simp), unnamed "nan" (by simp),
    or_self, if_false, decimal?, all, List.isEmpty_cons, Bool.false_and, Bool.false_eq_true,
    exponentOnly?, Option.map_some, List.append_nil, hn]
  have size : n.toNat < 10 ^ 20 := by
    have := n.toNat_lt
    omega
  have sign : ¬ ((n.toNat : Int) < 0) := by omega
  exact congrArg some ((Binary64.ofDecimal_of_lt positive size).trans
    (by rw [Binary64.ofInt, decide_eq_false sign, Int.natAbs_natCast]))

namespace Settings

/-- The number that is kept of a count: from `2^63` on the nearest multiple of 2048, or the greatest
number of 64 bits. -/
def rounded (n : UInt64) : UInt64 :=
  if n.toNat < 2 ^ 63 then n
  else .ofNat (min (Binary64.roundHalfEven n.toNat 2048 * 2048) (2 ^ 64 - 1))

theorem rounded_of_lt {n : UInt64} (h : n.toNat < 2 ^ 63) : rounded n = n := if_pos h

theorem toNat_rounded {n : UInt64} (h : ¬ n.toNat < 2 ^ 63) : (rounded n).toNat =
    min (Binary64.roundHalfEven n.toNat 2048 * 2048) (2 ^ 64 - 1) := by
  rw [rounded, if_neg h, UInt64.toNat_ofNat', Nat.mod_eq_of_lt]
  omega

/-- **A count of 64 bits is kept as it is if it is a multiple of 2048 or the greatest one.** -/
theorem rounded_eq_self_iff {n : UInt64} :
    rounded n = n ↔ n.toNat < 2 ^ 63 ∨ 2048 ∣ n.toNat ∨ n.toNat = 2 ^ 64 - 1 := by
  by_cases h : n.toNat < 2 ^ 63
  · exact iff_of_true (rounded_of_lt h) (.inl h)
  · have bound := n.toNat_lt
    rw [← UInt64.toNat_inj, toNat_rounded h, Binary64.roundHalfEven]
    split
    · omega
    · omega

theorem int64_holds_iff (n : Nat) : Width.int64.holds n = true ↔ n < 2 ^ 63 := by
  have low : Width.int64.low = -2 ^ 63 := rfl
  have high : Width.int64.high = 2 ^ 63 - 1 := rfl
  rw [Width.holds, low, high, Bool.and_eq_true, decide_eq_true_iff, decide_eq_true_iff]
  omega

/-- The number of a large count as a setting. -/
theorem toNatUpTo_ofInt {n : UInt64} (h : ¬ n.toNat < 2 ^ 63) :
    UInt64.ofNat ((Binary64.ofInt n.toNat).toNatUpTo Width.uint64.high.toNat) = rounded n := by
  have sign : ¬ ((n.toNat : Int) < 0) := by omega
  have limit : Width.uint64.high.toNat = 2 ^ 64 - 1 := rfl
  rw [Binary64.ofInt, decide_eq_false sign, Int.natAbs_natCast, limit,
    Binary64.toNatUpTo_ofRatio (Nat.le_of_not_lt h) n.toNat_lt, rounded, if_neg h]

/-- **A count that a document writes is kept rounded.** -/
theorem toWord?_ofNat (n : UInt64) : toWord? (.ofNat n.toNat) = some (rounded n) := by
  have high : Width.int64.high = 2 ^ 63 - 1 := rfl
  by_cases h : n.toNat < 2 ^ 63
  · have fits : (n.toNat : Int) ≤ Width.int64.high := by
      rw [high]
      omega
    have natural : (0 : Int) ≤ n.toNat := by omega
    simp only [toWord?, Value.ofNat, settle, if_pos fits, if_pos natural, Int.toNat_natCast,
      UInt64.ofNat_toNat, rounded_of_lt h]
  · have beyond : ¬ (n.toNat : Int) ≤ Width.int64.high := by
      rw [high]
      omega
    simp only [toWord?, Value.ofNat, settle, if_neg beyond, toNatUpTo_ofInt h]

/-- **A count means as a value what it means as a text, rounded.** -/
theorem toWord?_valueOf {s : String} {n : UInt64} (h : toWord? (.text s) = some n) :
    toWord? (Environment.valueOf s) = some (rounded n) := by
  have read := h
  simp only [toWord?, settle] at h
  split at h
  · rename_i b ht
    have small : rounded n = n := by
      rw [← Option.some.inj h]
      cases b <;> decide +kernel
    rw [small]
    rcases valueOf_of_truth? ht with hv | hv
    · rw [hv, ← h]
      rfl
    · rw [hv]
      exact read
  · rename_i ht
    have word : lowerText s ≠ "true" ∧ lowerText s ≠ "false" := by
      rw [truth?] at ht
      constructor
      · intro hw
        rw [hw] at ht
        cases ht
      · intro hw
        rw [hw] at ht
        cases ht
    rw [Environment.valueOf, if_neg word.1, if_neg word.2, integer?_of_word? h, Width.fit?]
    by_cases fits : n.toNat < 2 ^ 63
    · rw [if_pos ((int64_holds_iff _).mpr fits)]
      exact toWord?_ofNat n
    · rw [if_neg (fun holds => fits ((int64_holds_iff _).mp holds)),
        ofText?_of_word? h (by omega)]
      simp only [toWord?, settle, toNatUpTo_ofInt fits]

/-! ### Destinations -/

/-- What arrives of the text of a destination: the text of the value that it is taken for. -/
def reread (s : String) : String := (toText? (Environment.valueOf s)).getD s

/-- What a variable is taken for can be written as a text. -/
theorem exists_toText?_valueOf (s : String) :
    Environment.valueOf s ≠ .null ∧ ∃ t, toText? (Environment.valueOf s) = some t := by
  rw [Environment.valueOf]
  split
  · exact ⟨Value.noConfusion, _, rfl⟩
  · split
    · exact ⟨Value.noConfusion, _, rfl⟩
    · split
      · rename_i i _
        refine ⟨Value.noConfusion, ?_⟩
        by_cases fits : i ≤ Width.int64.high
        · exact ⟨toString i, by simp only [toText?, settle, if_pos fits]⟩
        · exact ⟨(Binary64.ofInt i).render .away, by simp only [toText?, settle, if_neg fits]⟩
      · split
        · exact ⟨Value.noConfusion, _, rfl⟩
        · exact ⟨Value.noConfusion, _, rfl⟩

/-- **A destination is what its text is taken for, written out.** -/
theorem toOptionalText?_valueOf (s : String) :
    toOptionalText? (Environment.valueOf s) = some (some (reread s)) := by
  obtain ⟨given, t, ht⟩ := exists_toText?_valueOf s
  have told : toOptionalText? (Environment.valueOf s) =
      (toText? (Environment.valueOf s)).map some := by
    cases hv : Environment.valueOf s with
    | null => exact absurd hv given
    | _ => rfl
  rw [told, reread, ht]
  rfl

/-- A word arrives as it is. -/
theorem reread_of_isWord {s : String} (h : isWord (lowerText s) = true) : reread s = s := by
  rw [reread, valueOf_of_isWord h]
  rfl

end Settings

end Wiring
