import Cossack.Lib.JsonText
import Mathlib

/-! # JSON numbers

    The text of a number, as `Number.prototype.toString` writes it, and that
    reading it gives the number back.  A number is a decimal; the text only depends
    on its value. -/

namespace JsonText

/-! ## Section 1: The text of a number -/

/-- How many zeros the coefficient ends with. -/
def trailingZeros (n : Nat) : Nat :=
  Nat.findGreatest (fun z => 10 ^ z ∣ n) (Nat.toDigits 10 n).length

/-- The digits of a number without the zeros at their end. -/
def Decimal.shortest (d : Decimal) : Nat := d.coefficient / 10 ^ trailingZeros d.coefficient

/-- The number is `shortest * 10^scale`. -/
def Decimal.scale (d : Decimal) : Int := d.exponent + trailingZeros d.coefficient

/-- The exponent of scientific notation. -/
def exponentText (e : Int) : List Char :=
  (if e < 0 then '-' else '+') :: Nat.toDigits 10 e.natAbs

/-- A positive number with these digits, the point after the first `n` of them. -/
def positiveText (digits : List Char) (n : Int) : List Char :=
  let k : Int := digits.length
  if k ≤ n ∧ n ≤ 21 then digits ++ List.replicate (n - k).toNat '0'
  else if 0 < n ∧ n ≤ 21 then digits.take n.toNat ++ '.' :: digits.drop n.toNat
  else if -6 < n ∧ n ≤ 0 then '0' :: '.' :: (List.replicate (-n).toNat '0' ++ digits)
  else
    match digits with
    | [] => []
    | [c] => c :: 'e' :: exponentText (n - 1)
    | c :: rest => c :: '.' :: (rest ++ 'e' :: exponentText (n - 1))

/-- Minus zero is written as zero. -/
def numberText (d : Decimal) : List Char :=
  if d.coefficient = 0 then ['0']
  else
    let digits := Nat.toDigits 10 d.shortest
    (if d.negative then ['-'] else []) ++ positiveText digits (digits.length + d.scale)

/-- The decimal that the text of a number is read as. -/
def Decimal.canonical (d : Decimal) : Decimal :=
  if d.coefficient = 0 then ⟨false, 0, 0⟩
  else if 0 ≤ d.scale ∧ (Nat.toDigits 10 d.shortest).length + d.scale ≤ 21 then
    ⟨d.negative, d.shortest * 10 ^ d.scale.toNat, 0⟩
  else ⟨d.negative, d.shortest, d.scale⟩

example : numberText ⟨false, 120, -1⟩ = ['1', '2'] := by decide
example : numberText ⟨true, 15, -8⟩ = ['-', '1', '.', '5', 'e', '-', '7'] := by decide

/-! ## Section 2: The value -/

theorem shortest_mul (d : Decimal) :
    d.coefficient = d.shortest * 10 ^ trailingZeros d.coefficient := by
  have hdvd : 10 ^ trailingZeros d.coefficient ∣ d.coefficient :=
    Nat.findGreatest_spec (P := fun z => 10 ^ z ∣ d.coefficient) (Nat.zero_le _) (by simp)
  exact (Nat.div_mul_cancel hdvd).symm

theorem shortest_pos {d : Decimal} (h : d.coefficient ≠ 0) : 0 < d.shortest := by
  apply Nat.pos_of_ne_zero
  intro hzero
  rw [shortest_mul d, hzero, Nat.zero_mul] at h
  exact h rfl

/-! ## Section 3: Digits -/

theorem isDigit_eq (c : Char) : isDigit c = c.isDigit := by
  simp only [isDigit, Char.isDigit, Char.le_def]

theorem isDigit_toDigits {n : Nat} {c : Char} (h : c ∈ Nat.toDigits 10 n) : isDigit c = true := by
  rw [isDigit_eq]
  exact Nat.isDigit_of_mem_toDigits (by decide) (by decide) h

theorem isDigit_zeros {n : Nat} {c : Char} (h : c ∈ List.replicate n '0') : isDigit c = true := by
  obtain rfl := List.eq_of_mem_replicate h
  rfl

theorem digits_eq (s : List Char) : digits s = Nat.ofDigitChars 10 s 0 := by
  unfold digits Nat.ofDigitChars
  congr 1
  funext n c
  rw [Nat.mul_comm]

theorem digits_toDigits (n : Nat) : digits (Nat.toDigits 10 n) = n := by
  rw [digits_eq, Nat.ofDigitChars_ten_toDigits]

theorem digits_append_zeros (s : List Char) (n : Nat) :
    digits (s ++ List.replicate n '0') = digits s * 10 ^ n := by
  rw [digits_eq, digits_eq, Nat.ofDigitChars_append, Nat.ofDigitChars_replicate_zero, Nat.mul_comm]

theorem digits_zeros_append (s : List Char) (n : Nat) :
    digits (List.replicate n '0' ++ s) = digits s := by
  rw [digits_eq, digits_eq, Nat.ofDigitChars_append, Nat.ofDigitChars_replicate_zero, Nat.mul_zero]

theorem digits_lt {s : List Char} (h : ∀ c ∈ s, isDigit c = true) : digits s < 10 ^ s.length := by
  induction s with
  | nil => decide
  | cons c s ih =>
      have hc := h c (by simp)
      have hle : c.toNat - '0'.toNat ≤ 9 := by
        simp only [isDigit, Bool.and_eq_true, decide_eq_true_eq, Char.le_def] at hc
        have hup : c.toNat ≤ '9'.toNat := hc.2
        have h0 : ('0' : Char).toNat = 48 := rfl
        have h9 : ('9' : Char).toNat = 57 := rfl
        omega
      have hrest := ih fun d hd => h d (by simp [hd])
      rw [digits_eq] at hrest ⊢
      rw [Nat.ofDigitChars_cons, Nat.ofDigitChars_eq_ofDigitChars_zero, List.length_cons,
        Nat.pow_succ]
      have hmul : 10 ^ s.length * (10 * 0 + (c.toNat - '0'.toNat)) ≤ 10 ^ s.length * 9 :=
        Nat.mul_le_mul_left _ (by omega)
      omega

/-- A positive number has no leading zero. -/
theorem toDigits_head {n : Nat} (h : 0 < n) (s : List Char) : Nat.toDigits 10 n ≠ '0' :: s := by
  intro heq
  have hlt : n < 10 ^ s.length := by
    have hall : ∀ c ∈ s, isDigit c = true := fun c hc =>
      isDigit_toDigits (n := n) (heq ▸ List.mem_cons_of_mem _ hc)
    have hzero := digits_zeros_append s 1
    rw [show List.replicate 1 '0' ++ s = '0' :: s from rfl, ← heq, digits_toDigits] at hzero
    rw [hzero]
    exact digits_lt hall
  cases s with
  | nil => simp at hlt; omega
  | cons c s =>
      have hle := (Nat.length_toDigits_le_iff (by decide) (by simp)).mpr hlt
      rw [heq, List.length_cons] at hle
      omega

/-! ## Section 4: Reading a number -/

/-- What may follow a number: nothing that goes on with it. -/
def Delimited (rest : List Char) : Prop :=
  ∀ c, rest.head? = some c → isDigit c = false ∧ c ≠ '.' ∧ c ≠ 'e' ∧ c ≠ 'E'

def NoDigit (rest : List Char) : Prop := ∀ c, rest.head? = some c → isDigit c = false

theorem Delimited.noDigit {rest : List Char} (h : Delimited rest) : NoDigit rest :=
  fun c hc => (h c hc).1

theorem noDigit_cons {c : Char} {rest : List Char} (h : isDigit c = false) : NoDigit (c :: rest) := by
  intro d hd
  obtain rfl := Option.some.inj hd
  exact h

theorem span_digits {s rest : List Char} (h : ∀ c ∈ s, isDigit c = true) (hrest : NoDigit rest) :
    (s ++ rest).span isDigit = (s, rest) := by
  rw [List.span_eq_takeWhile_dropWhile]
  have hnone : rest.takeWhile isDigit = [] ∧ rest.dropWhile isDigit = rest := by
    cases rest with
    | nil => exact ⟨rfl, rfl⟩
    | cons c rest => simp [hrest c rfl]
  rw [List.takeWhile_append_of_pos h, List.dropWhile_append_of_pos h, hnone.1, hnone.2,
    List.append_nil]

/-- The digits before the point. -/
def Whole (s : List Char) : Prop :=
  s = ['0'] ∨ (s ≠ [] ∧ (∀ c ∈ s, isDigit c = true) ∧ ∀ t, s ≠ '0' :: t)

theorem integer_whole {s rest : List Char} (h : Whole s) (hrest : NoDigit rest) :
    integer (s ++ rest) = some (s, rest) := by
  rcases h with rfl | ⟨hne, hall, hzero⟩
  · rfl
  · have hspan := span_digits hall hrest
    cases s with
    | nil => exact absurd rfl hne
    | cons c s =>
        have hc : isDigit c = true := hall c (by simp)
        have hne0 : c ≠ '0' := fun heq => hzero s (heq ▸ rfl)
        rw [List.cons_append] at hspan ⊢
        unfold integer
        split
        · rename_i heq
          exact absurd (List.cons.inj heq).1 hne0
        · rename_i heq
          obtain ⟨rfl, rfl⟩ := List.cons.inj heq
          rw [if_pos hc, hspan]
        · rename_i heq
          cases heq

theorem fraction_none {rest : List Char} (h : ∀ t, rest ≠ '.' :: t) :
    fraction rest = some ([], rest) := by
  unfold fraction
  split
  · rename_i t
    exact absurd rfl (h t)
  · rfl

theorem fraction_some {s rest : List Char} (hne : s ≠ []) (h : ∀ c ∈ s, isDigit c = true)
    (hrest : NoDigit rest) : fraction ('.' :: (s ++ rest)) = some (s, rest) := by
  unfold fraction
  simp only [span_digits h hrest]
  rw [if_neg (by simpa using hne)]

theorem exponent_none {rest : List Char} (h : Delimited rest) : exponent rest = some (0, rest) := by
  unfold exponent
  cases rest with
  | nil => rfl
  | cons c rest =>
      obtain ⟨-, -, he, hE⟩ := h c rfl
      simp only
      rw [if_neg (by simp [he, hE])]

theorem exponent_some (e : Int) {rest : List Char} (h : NoDigit rest) :
    exponent ('e' :: (exponentText e ++ rest)) = some (e, rest) := by
  have hspan := span_digits (fun c hc => isDigit_toDigits (n := e.natAbs) hc) h
  have hne : (Nat.toDigits 10 e.natAbs).isEmpty = false := by
    simp [Nat.toDigits_ne_nil]
  unfold exponentText
  by_cases hneg : e < 0
  · rw [if_pos hneg]
    simp only [exponent, List.cons_append, true_or, if_true, hspan, hne, digits_toDigits,
      Bool.false_eq_true, if_false, Option.some.injEq, Prod.mk.injEq, and_true]
    omega
  · rw [if_neg hneg]
    simp only [exponent, List.cons_append, true_or, if_true, hspan, hne, digits_toDigits,
      Bool.false_eq_true, if_false, Option.some.injEq, Prod.mk.injEq, and_true]
    omega

/-- A number without its sign. -/
def unsigned (negative : Bool) (s : List Char) : Option (Decimal × List Char) := do
  let (whole, s) ← integer s
  let (part, s) ← fraction s
  let (e, s) ← exponent s
  return (⟨negative, digits (whole ++ part), e - part.length⟩, s)

theorem number_minus (s : List Char) : number ('-' :: s) = unsigned true s := rfl

theorem number_unsigned {s : List Char} (h : ∀ t, s ≠ '-' :: t) : number s = unsigned false s := by
  unfold number unsigned
  split
  rename_i negative rest heq
  split at heq
  · rename_i t
    exact absurd rfl (h t)
  · obtain ⟨rfl, rfl⟩ := Prod.mk.inj heq
    rfl

/-- A number with an exponent: `fractionText` is nothing, or the point and `part`. -/
theorem unsigned_exponent (negative : Bool) {whole part fractionText : List Char}
    (hwhole : Whole whole)
    (hpart : (part, fractionText) = ([], []) ∨ ∃ s, s ≠ [] ∧ (∀ c ∈ s, isDigit c = true) ∧
      part = s ∧ fractionText = '.' :: s)
    (e : Int) {rest : List Char} (hrest : NoDigit rest) :
    unsigned negative (whole ++ (fractionText ++ 'e' :: (exponentText e ++ rest))) =
      some (⟨negative, digits (whole ++ part), e - part.length⟩, rest) := by
  have he : NoDigit ('e' :: (exponentText e ++ rest)) := noDigit_cons rfl
  have hfraction : NoDigit (fractionText ++ 'e' :: (exponentText e ++ rest)) ∧
      fraction (fractionText ++ 'e' :: (exponentText e ++ rest)) =
        some (part, 'e' :: (exponentText e ++ rest)) := by
    rcases hpart with heq | ⟨s, hne, hall, rfl, rfl⟩
    · obtain ⟨rfl, rfl⟩ := Prod.mk.inj heq
      exact ⟨he, fraction_none (by simp)⟩
    · exact ⟨noDigit_cons rfl, fraction_some hne hall he⟩
  rw [unsigned, integer_whole hwhole hfraction.1]
  simp only [Option.bind_eq_bind, Option.bind_some]
  rw [hfraction.2]
  simp only [Option.bind_some]
  rw [exponent_some e hrest]
  rfl

/-- A positive number is read from its text, whichever notation it has. -/
theorem unsigned_positive (negative : Bool) {s : Nat} (hs : 0 < s) (scale : Int)
    {rest : List Char} (hrest : Delimited rest) :
    unsigned negative (positiveText (Nat.toDigits 10 s) ((Nat.toDigits 10 s).length + scale) ++ rest) =
      some (if 0 ≤ scale ∧ (Nat.toDigits 10 s).length + scale ≤ 21 then
        ⟨negative, s * 10 ^ scale.toNat, 0⟩ else ⟨negative, s, scale⟩, rest) := by
  have hall : ∀ c ∈ Nat.toDigits 10 s, isDigit c = true := fun c hc => isDigit_toDigits hc
  have hvalue := digits_toDigits s
  have hhead := toDigits_head hs
  have hne : Nat.toDigits 10 s ≠ [] := Nat.toDigits_ne_nil
  generalize Nat.toDigits 10 s = ds at hall hvalue hhead hne ⊢
  have hlength : 0 < ds.length := List.length_pos_iff.mpr hne
  have hpoint : ∀ t, rest ≠ '.' :: t := by
    rintro t rfl
    exact (hrest '.' rfl).2.1 rfl
  unfold positiveText
  simp only
  by_cases hwhole : 0 ≤ scale ∧ ds.length + scale ≤ 21
  · -- digits and zeros
    rw [if_pos ⟨by omega, hwhole.2⟩, if_pos hwhole]
    have hscale : ((ds.length : Int) + scale - ds.length).toNat = scale.toNat := by omega
    rw [hscale]
    have hw : Whole (ds ++ List.replicate scale.toNat '0') := by
      refine .inr ⟨by simp [hne], ?_, ?_⟩
      · intro c hc
        rcases List.mem_append.mp hc with hc | hc
        · exact hall c hc
        · exact isDigit_zeros hc
      · intro t heq
        cases ds with
        | nil => exact hne rfl
        | cons d ds => exact hhead ds (by rw [(List.cons.inj heq).1])
    rw [unsigned, integer_whole hw hrest.noDigit]
    simp only [Option.bind_eq_bind, Option.bind_some, fraction_none hpoint, exponent_none hrest,
      List.append_nil, digits_append_zeros, hvalue, Option.pure_def]
    rfl
  rw [if_neg (fun h => hwhole ⟨by omega, h.2⟩), if_neg hwhole]
  by_cases hpart : 0 < (ds.length : Int) + scale ∧ (ds.length : Int) + scale ≤ 21
  · -- a point among the digits
    rw [if_pos hpart]
    have hneg : scale < 0 := by
      by_contra hge
      exact hwhole ⟨by omega, hpart.2⟩
    generalize hm : ((ds.length : Int) + scale).toNat = m
    have hw : Whole (ds.take m) := by
      refine .inr ⟨?_, fun c hc => hall c (List.mem_of_mem_take hc), ?_⟩
      · intro hnil
        have hlen := congrArg List.length hnil
        rw [List.length_take, List.length_nil] at hlen
        omega
      · intro t heq
        obtain ⟨k, rfl⟩ : ∃ k, m = k + 1 := ⟨m - 1, by omega⟩
        cases ds with
        | nil => exact hne rfl
        | cons d ds => exact hhead ds (by rw [(List.cons.inj heq).1])
    have hdrop : ds.drop m ≠ [] := by
      intro hnil
      have hlen := congrArg List.length hnil
      rw [List.length_drop, List.length_nil] at hlen
      omega
    rw [List.append_assoc, List.cons_append, unsigned, integer_whole hw (noDigit_cons rfl)]
    simp only [Option.bind_eq_bind, Option.bind_some,
      fraction_some hdrop (fun c hc => hall c (List.mem_of_mem_drop hc)) hrest.noDigit,
      exponent_none hrest, List.take_append_drop, hvalue, Option.pure_def, List.length_drop,
      Option.some.injEq, Prod.mk.injEq, Decimal.mk.injEq, true_and, and_true]
    omega
  rw [if_neg hpart]
  by_cases hsmall : -6 < (ds.length : Int) + scale ∧ (ds.length : Int) + scale ≤ 0
  · -- zeros after the point
    rw [if_pos hsmall]
    generalize hm : (-((ds.length : Int) + scale)).toNat = m
    have hdigits : ∀ c ∈ List.replicate m '0' ++ ds, isDigit c = true := by
      intro c hc
      rcases List.mem_append.mp hc with hc | hc
      · exact isDigit_zeros hc
      · exact hall c hc
    have hzero : Whole ['0'] := .inl rfl
    have hint : integer ('0' :: '.' :: (List.replicate m '0' ++ ds ++ rest)) =
        some (['0'], '.' :: (List.replicate m '0' ++ ds ++ rest)) := rfl
    have hone : digits (['0'] ++ (List.replicate m '0' ++ ds)) = s := by
      rw [← hvalue, ← digits_zeros_append ds (m + 1)]
      rfl
    rw [List.cons_append, List.cons_append, unsigned, hint]
    simp only [Option.bind_eq_bind, Option.bind_some,
      fraction_some (by simp [hne]) hdigits hrest.noDigit, exponent_none hrest, hone,
      Option.pure_def, List.length_append, List.length_replicate, Option.some.injEq, Prod.mk.injEq,
      Decimal.mk.injEq, true_and, and_true]
    omega
  rw [if_neg hsmall]
  -- scientific notation
  match ds with
  | [c] =>
      have hw : Whole [c] := .inr ⟨by simp, hall, hhead⟩
      have hread := unsigned_exponent negative hw (.inl rfl) ((([c] : List Char).length : Int) + scale - 1)
        hrest.noDigit
      have htext : (c :: 'e' :: exponentText ((([c] : List Char).length : Int) + scale - 1)) ++ rest =
          [c] ++ ([] ++ 'e' :: (exponentText ((([c] : List Char).length : Int) + scale - 1) ++ rest)) := by
        simp
      simp only
      rw [htext, hread, List.append_nil, hvalue]
      simp only [Option.some.injEq, Prod.mk.injEq, Decimal.mk.injEq, true_and, and_true,
        List.length_singleton, List.length_nil]
      omega
  | c :: d :: more =>
      have hw : Whole [c] := .inr ⟨by simp, fun x hx => hall x (by simp at hx; simp [hx]),
        fun t heq => hhead (d :: more) (by rw [(List.cons.inj heq).1])⟩
      have hread := unsigned_exponent negative hw
        (.inr ⟨d :: more, by simp, fun x hx => hall x (List.mem_cons_of_mem _ hx), rfl, rfl⟩)
        (((c :: d :: more).length : Int) + scale - 1) hrest.noDigit
      have htext : (c :: '.' :: ((d :: more) ++ 'e' ::
          exponentText (((c :: d :: more).length : Int) + scale - 1))) ++ rest =
          [c] ++ (('.' :: d :: more) ++ 'e' ::
            (exponentText (((c :: d :: more).length : Int) + scale - 1) ++ rest)) := by simp
      simp only
      rw [htext, hread, List.singleton_append, hvalue]
      simp only [Option.some.injEq, Prod.mk.injEq, Decimal.mk.injEq, true_and, and_true,
        List.length_cons]
      omega

theorem positiveText_head (s : Nat) (n : Int) :
    ∃ c t, positiveText (Nat.toDigits 10 s) n = c :: t ∧ isDigit c = true := by
  have hall : ∀ c ∈ Nat.toDigits 10 s, isDigit c = true := fun c hc => isDigit_toDigits hc
  have hne : Nat.toDigits 10 s ≠ [] := Nat.toDigits_ne_nil
  generalize Nat.toDigits 10 s = ds at hall hne ⊢
  obtain ⟨c, ds, rfl⟩ := List.exists_cons_of_ne_nil hne
  have hc := hall c (by simp)
  unfold positiveText
  simp only
  split
  · exact ⟨c, _, rfl, hc⟩
  split
  · rename_i hpart
    obtain ⟨k, hk⟩ : ∃ k, n.toNat = k + 1 := ⟨n.toNat - 1, by omega⟩
    rw [hk]
    exact ⟨c, _, rfl, hc⟩
  split
  · exact ⟨'0', _, rfl, rfl⟩
  · cases ds with
    | nil => exact ⟨c, _, rfl, hc⟩
    | cons d ds => exact ⟨c, _, rfl, hc⟩

/-- Reading the text of a number. -/
theorem number_numberText (d : Decimal) {rest : List Char} (hrest : Delimited rest) :
    number (numberText d ++ rest) = some (d.canonical, rest) := by
  unfold numberText Decimal.canonical
  by_cases hzero : d.coefficient = 0
  · rw [if_pos hzero, if_pos hzero]
    have hpoint : ∀ t, rest ≠ '.' :: t := by
      rintro t rfl
      exact (hrest '.' rfl).2.1 rfl
    have hint : integer ('0' :: rest) = some (['0'], rest) := rfl
    rw [List.cons_append, List.nil_append, number_unsigned (by simp), unsigned, hint]
    simp only [Option.bind_eq_bind, Option.bind_some, fraction_none hpoint, exponent_none hrest]
    rfl
  rw [if_neg hzero, if_neg hzero]
  have hs := shortest_pos hzero
  have hread := fun negative => unsigned_positive negative hs d.scale hrest
  simp only
  cases hneg : d.negative with
  | true =>
      rw [if_pos rfl, List.append_assoc, List.cons_append, number_minus]
      exact hread true
  | false =>
      rw [if_neg (by decide), List.nil_append, number_unsigned]
      · exact hread false
      · obtain ⟨c, t, htext, hc⟩ := positiveText_head d.shortest
          ((Nat.toDigits 10 d.shortest).length + d.scale)
        rw [htext]
        intro u heq
        rw [(List.cons.inj heq).1] at hc
        cases hc

end JsonText
