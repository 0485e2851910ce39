import Cossack.Core.LocaleNegotiation
import Mathlib.Data.List.DropRight
import Mathlib.Data.List.TakeWhile

/-! # The locale that is chosen

    The ranges of a header decide as they are read, whatever their number and order; of
    the white space in a header only that after a semicolon counts. -/

namespace Cossack.Core.LocaleNegotiation

open Preferences

/-! ## Section 1: What a header asks for -/

/-- The first element that will do. -/
def First (p : Text → Prop) (l : List Text) (x : Text) : Prop :=
  ∃ before after, l = before ++ x :: after ∧ p x ∧ ∀ y ∈ before, ¬ p y

/-- The locale of a tag: the exact one, or else one of the same language.  No tag is for
    the empty locale. -/
def Selects (toLowerCase : Text → Text) (supported : List Text) (tag locale : Text) : Prop :=
  locale ≠ [] ∧ (First (fun s => toLowerCase s = tag) supported locale ∨
    (∀ s ∈ supported, toLowerCase s ≠ tag) ∧
      First (fun s => baseOf (toLowerCase s) = baseOf tag) supported locale)

/-- A range that is acceptable and names a supported locale. -/
def Picks (toLowerCase : Text → Text) (supported : List Text) (r : LanguageRange) : Prop :=
  0 < r.quality ∧ r.tag ≠ [] ∧ r.tag ≠ wildcard ∧ ∃ locale, Selects toLowerCase supported r.tag locale

def Negotiated (toLowerCase : Text → Text) (ranges : List LanguageRange) (supported : List Text)
    (fallback result : Text) : Prop :=
  (∃ r, Best LanguageRange.quality (Picks toLowerCase supported) ranges r ∧
    Selects toLowerCase supported r.tag result) ∨
  (∀ r ∈ ranges, ¬ Picks toLowerCase supported r) ∧
    ((∃ r ∈ ranges, r.tag = wildcard ∧ 0 < r.quality) ∧ result = supported.headD fallback ∨
      (¬ ∃ r ∈ ranges, r.tag = wildcard ∧ 0 < r.quality) ∧ result = fallback)

variable {toLowerCase : Text → Text} {supported : List Text} {tag locale fallback : Text}

theorem first_iff {p : Text → Prop} [DecidablePred p] {l : List Text} {x : Text} :
    First p l x ↔ l.find? (fun y => p y) = some x := by
  rw [List.find?_eq_some_iff_append]
  simp only [First, decide_eq_true_eq, Bool.not_eq_true', decide_eq_false_iff_not]
  constructor
  · rintro ⟨before, after, hl, hp, hbefore⟩
    exact ⟨hp, before, after, hl, hbefore⟩
  · rintro ⟨hp, before, after, hl, hbefore⟩
    exact ⟨before, after, hl, hp, hbefore⟩

theorem selects_iff :
    Selects toLowerCase supported tag locale ↔
      truthy (matchAgainst toLowerCase supported tag) = some locale := by
  unfold Selects truthy matchAgainst
  rw [first_iff, first_iff, Option.filter_eq_some_iff, decide_eq_true_eq]
  cases hexact : supported.find? fun s => toLowerCase s = tag with
  | some found =>
    -- an exact match shuts out every other
    have hfound : toLowerCase found = tag := by simpa using List.find?_some hexact
    have hnot : ¬ ∀ s ∈ supported, toLowerCase s ≠ tag :=
      fun h => h found (List.mem_of_find?_eq_some hexact) hfound
    simp only [hnot, false_and, or_false, Option.some_or, and_comm]
  | none =>
    have hall : ∀ s ∈ supported, toLowerCase s ≠ tag := by simpa using hexact
    rw [Option.none_or, and_iff_right hall]
    simp [and_comm]

/-! ## Section 2: The loop -/

variable {select : Text → Option Text} {entries : List LanguageRange} {star : Bool}

/-- A range that ends the loop. -/
def ends (select : Text → Option Text) (r : LanguageRange) : Bool :=
  r.tag ≠ wildcard && (select r.tag).isSome

theorem choose_some {r : LanguageRange} (h : entries.find? (ends select) = some r) :
    (choose select entries star).1 = select r.tag := by
  induction entries generalizing star with
  | nil => cases h
  | cons s rest ih =>
    rw [List.find?_cons] at h
    unfold choose
    by_cases hwild : s.tag = wildcard
    · rw [if_pos hwild]
      have hgoes : ends select s = false := by simp [ends, hwild]
      rw [hgoes] at h
      exact ih h
    · rw [if_neg hwild]
      cases hselect : select s.tag with
      | none =>
        have hgoes : ends select s = false := by simp [ends, hselect]
        rw [hgoes] at h
        exact ih h
      | some found =>
        have hends : ends select s = true := by simp [ends, hwild, hselect]
        rw [hends] at h
        obtain rfl := Option.some.inj h
        exact hselect.symm

theorem choose_none (h : ∀ r ∈ entries, ends select r = false) :
    choose select entries star = (none, star || entries.any fun r => r.tag = wildcard) := by
  induction entries generalizing star with
  | nil => simp [choose]
  | cons s rest ih =>
    have hrest : ∀ star, choose select rest star = (none, star || rest.any fun r => r.tag = wildcard) :=
      fun star => ih fun r hr => h r (List.mem_cons_of_mem _ hr)
    have hs := h s List.mem_cons_self
    unfold choose
    by_cases hwild : s.tag = wildcard
    · rw [if_pos hwild, hrest]
      simp [hwild]
    · have hselect : select s.tag = none := by simpa [ends, hwild] using hs
      rw [if_neg hwild, hselect]
      simp only [hrest, List.any_cons, hwild, decide_false, Bool.false_or]

/-- What the loop and the lines after it make of the ranges of a header. -/
def negotiate (toLowerCase : Text → Text) (ranges : List LanguageRange) (supported : List Text)
    (fallback : Text) : Text :=
  let entries := sort LanguageRange.quality (ranges.filter fun r => r.tag ≠ [] && decide (0 < r.quality))
  match choose (fun tag => truthy (matchAgainst toLowerCase supported tag)) entries false with
  | (some locale, _) => locale
  | (none, star) => if star then supported.headD fallback else fallback

theorem negotiated (ranges : List LanguageRange) :
    Negotiated toLowerCase ranges supported fallback
      (negotiate toLowerCase ranges supported fallback) := by
  let keep : LanguageRange → Bool := fun r => r.tag ≠ [] && decide (0 < r.quality)
  let select : Text → Option Text := fun tag => truthy (matchAgainst toLowerCase supported tag)
  have hkeep : ∀ r, keep r = true ↔ r.tag ≠ [] ∧ 0 < r.quality := by simp [keep]
  have hpicks : ∀ r, keep r = true ∧ ends select r = true ↔ Picks toLowerCase supported r := by
    intro r
    simp only [hkeep, Picks, selects_iff, ends, Bool.and_eq_true, Option.isSome_iff_exists,
      decide_eq_true_eq, select]
    constructor
    · rintro ⟨⟨htag, hquality⟩, hwild, hlocale⟩
      exact ⟨hquality, htag, hwild, hlocale⟩
    · rintro ⟨hquality, htag, hwild, hlocale⟩
      exact ⟨⟨htag, hquality⟩, hwild, hlocale⟩
  have hmem : ∀ r, r ∈ sort LanguageRange.quality (ranges.filter keep) ↔ r ∈ ranges ∧ keep r = true := by
    intro r
    rw [mem_sort, List.mem_filter]
  show Negotiated _ _ _ _ (match choose select (sort LanguageRange.quality (ranges.filter keep)) false with
    | (some locale, _) => locale
    | (none, star) => if star then supported.headD fallback else fallback)
  cases hfind : (sort LanguageRange.quality (ranges.filter keep)).find? (ends select) with
  | some r =>
    have hbest := (find?_sort_some hfind).of_filter.congr fun r _ => hpicks r
    have hends : ends select r = true := List.find?_some hfind
    obtain ⟨locale, hlocale⟩ := Option.isSome_iff_exists.mp (Bool.and_eq_true_iff.mp hends).2
    have hchoose : (choose select (sort LanguageRange.quality (ranges.filter keep)) false).1 =
        select r.tag := choose_some hfind
    rw [hlocale] at hchoose
    refine .inl ⟨r, hbest, ?_⟩
    cases hrun : choose select (sort LanguageRange.quality (ranges.filter keep)) false with
    | mk chosen star =>
      rw [hrun] at hchoose
      obtain rfl : chosen = some locale := hchoose
      exact selects_iff.mpr hlocale
  | none =>
    have hnone : ∀ r ∈ sort LanguageRange.quality (ranges.filter keep), ends select r = false := by
      simpa using hfind
    rw [choose_none hnone, Bool.false_or]
    refine .inr ⟨fun r hr hpick => ?_, ?_⟩
    · obtain ⟨hkept, hends⟩ := (hpicks r).mpr hpick
      rw [hnone r ((hmem r).mpr ⟨hr, hkept⟩)] at hends
      exact absurd hends Bool.false_ne_true
    · have hstar : (sort LanguageRange.quality (ranges.filter keep)).any (fun r => r.tag = wildcard) = true ↔
          ∃ r ∈ ranges, r.tag = wildcard ∧ 0 < r.quality := by
        simp only [List.any_eq_true, hmem, hkeep, decide_eq_true_eq]
        constructor
        · rintro ⟨r, ⟨hr, -, hquality⟩, hwild⟩
          exact ⟨r, hr, hwild, hquality⟩
        · rintro ⟨r, hr, hwild, hquality⟩
          exact ⟨r, ⟨hr, by rw [hwild]; decide, hquality⟩, hwild⟩
      by_cases hany : ∃ r ∈ ranges, r.tag = wildcard ∧ 0 < r.quality
      · exact .inl ⟨hany, if_pos (hstar.mpr hany)⟩
      · exact .inr ⟨hany, if_neg fun h => hany (hstar.mp h)⟩

/-! ## Section 3: White space -/

def Blank (text : Text) : Prop := ∀ c ∈ text, JsString.isSpace c = true

/-- A part of a header with white space around its tag and after its weight. -/
structure Spaced where
  tag : Text
  weight : Text
  start : Text
  middle : Text
  stop : Text
  /-- The tag has no weight in it. -/
  plain : (splitWeight tag).2 = []
  /-- The weight is missing, or is what follows `;q=`. -/
  weighted : weight = [] ∨ ∃ q, weight = ';' :: 'q' :: '=' :: q
  blank : Blank start ∧ Blank middle ∧ Blank stop

def Spaced.text (s : Spaced) : Text := s.start ++ s.tag ++ s.middle ++ s.weight ++ s.stop

/-- Two headers of the same tags and weights. -/
def Respaced (header header' : Text) : Prop :=
  List.Forall₂ (fun part part' => ∃ s s' : Spaced, part = s.text ∧ part' = s'.text ∧
    s.tag = s'.tag ∧ s.weight = s'.weight) (parts header) (parts header')

theorem splitWeight_cons {c : Char} {rest : Text} (h : ∀ q, c :: rest ≠ ';' :: 'q' :: '=' :: q) :
    splitWeight (c :: rest) = (c :: (splitWeight rest).1, (splitWeight rest).2) := by
  rw [splitWeight]
  intro q hc hrest
  exact h q (by rw [hc, hrest])

/-- A separator does not begin in a tag and end behind it. -/
theorem splitWeight_append {tag z : Text} (hplain : (splitWeight tag).2 = [])
    (hz : z.head? ≠ some 'q' ∧ z.head? ≠ some '=') :
    splitWeight (tag ++ z) = (tag ++ (splitWeight z).1, (splitWeight z).2) := by
  fun_induction splitWeight tag with
  | case1 rest => exact absurd hplain (List.cons_ne_nil _ _)
  | case2 c rest hc ih =>
    rw [List.cons_append, splitWeight_cons, ih hplain, List.cons_append]
    intro q hq
    obtain ⟨hsemi, hrest⟩ := List.cons.inj hq
    match rest with
    | [] =>
      have hz' : z = 'q' :: '=' :: q := hrest
      exact hz.1 (by rw [hz']; rfl)

    | [d] =>
      obtain ⟨-, hequals⟩ := List.cons.inj hrest
      have hz' : z = '=' :: q := hequals
      exact hz.2 (by rw [hz']; rfl)
    | d :: e :: rest =>
      obtain ⟨hd, hequals⟩ := List.cons.inj hrest
      exact hc rest hsemi (by rw [hd, (List.cons.inj hequals).1])
  | case3 => rfl

theorem isSpace_of_blank {text : Text} (h : Blank text) {c : Char} (hc : JsString.isSpace c = false) :
    text.head? ≠ some c := by
  intro hhead
  have hspace := h c (List.mem_of_head? hhead)
  rw [hc] at hspace
  exact absurd hspace Bool.false_ne_true

theorem plain_blank {text : Text} (h : Blank text) : (splitWeight text).2 = [] := by
  induction text with
  | nil => rfl
  | cons c rest ih =>
    rw [splitWeight_cons]
    · exact ih fun d hd => h d (List.mem_cons_of_mem _ hd)
    · intro q hq
      exact isSpace_of_blank h (c := ';') (by decide) (by rw [hq]; rfl)

theorem plain_append {tag z : Text} (htag : (splitWeight tag).2 = []) (hz : (splitWeight z).2 = [])
    (hhead : z.head? ≠ some 'q' ∧ z.head? ≠ some '=') : (splitWeight (tag ++ z)).2 = [] := by
  rw [splitWeight_append htag hhead]
  exact hz

theorem plain_dropWhile {text : Text} (h : (splitWeight text).2 = []) :
    (splitWeight (text.dropWhile JsString.isSpace)).2 = [] := by
  induction text with
  | nil => rfl
  | cons c rest ih =>
    rw [List.dropWhile_cons]
    split
    · rename_i hspace
      rw [splitWeight_cons] at h
      · exact ih h
      · intro q hq
        rw [(List.cons.inj hq).1] at hspace
        exact absurd hspace (by decide)
    · exact h

theorem dropWhile_blank {text z : Text} (h : Blank text) :
    (text ++ z).dropWhile JsString.isSpace = z.dropWhile JsString.isSpace := by
  rw [List.dropWhile_append, List.dropWhile_eq_nil_iff.mpr h]
  rfl

theorem trim_eq (text : Text) :
    trim text = (text.dropWhile JsString.isSpace).rdropWhile JsString.isSpace := rfl

theorem rdropWhile_blank {text z : Text} (h : Blank z) :
    (text ++ z).rdropWhile JsString.isSpace = text.rdropWhile JsString.isSpace := by
  unfold List.rdropWhile
  rw [List.reverse_append, dropWhile_blank]
  intro c hc
  exact h c (List.mem_reverse.mp hc)

/-- White space before and behind a text does not matter once it is trimmed. -/
theorem trim_blank {before text after : Text} (hbefore : Blank before) (hafter : Blank after) :
    trim (before ++ text ++ after) = trim text := by
  rw [trim_eq, trim_eq, List.append_assoc, dropWhile_blank hbefore, List.dropWhile_append]
  split
  · rename_i hnil
    rw [List.isEmpty_iff] at hnil
    rw [hnil, List.dropWhile_eq_nil_iff.mpr hafter]
  · exact rdropWhile_blank hafter

theorem trim_dropWhile (text : Text) : trim (text.dropWhile JsString.isSpace) = trim text := by
  rw [trim_eq, trim_eq, List.dropWhile_idempotent]

/-- A trimmed part of which a weight is known. -/
theorem trim_weight (x y : Text) :
    trim (x ++ ';' :: 'q' :: '=' :: y) =
      x.dropWhile JsString.isSpace ++ ';' :: 'q' :: '=' :: y.rdropWhile JsString.isSpace := by
  have hdrop : (x ++ ';' :: 'q' :: '=' :: y).dropWhile JsString.isSpace =
      x.dropWhile JsString.isSpace ++ ';' :: 'q' :: '=' :: y := by
    rw [List.dropWhile_append]
    split
    · rename_i hnil
      rw [List.isEmpty_iff.mp hnil]
      rfl
    · rfl
  rw [trim_eq, hdrop]
  have hsplit : x.dropWhile JsString.isSpace ++ ';' :: 'q' :: '=' :: y =
      (x.dropWhile JsString.isSpace ++ [';', 'q', '=']) ++ y := by simp
  rw [hsplit]
  unfold List.rdropWhile
  rw [List.reverse_append, List.dropWhile_append]
  split
  · rename_i hnil
    rw [List.isEmpty_iff.mp hnil, List.reverse_append]
    simp
    rfl
  · simp

/-- What is read of a part: the tag without white space, and the weight. -/
theorem readRange_text {s s' : Spaced} (htag : s.tag = s'.tag) (hweight : s.weight = s'.weight) :
    readRange toLowerCase s.text = readRange toLowerCase s'.text := by
  have hplain : ∀ s : Spaced, (splitWeight (s.start ++ (s.tag ++ s.middle))).2 = [] := by
    intro s
    have hmiddle : ∀ c, JsString.isSpace c = false → s.middle.head? ≠ some c := fun c hc =>
      isSpace_of_blank s.blank.2.1 hc
    have htext := plain_append s.plain (plain_blank s.blank.2.1)
      ⟨hmiddle 'q' (by decide), hmiddle '=' (by decide)⟩
    have hstart := s.blank.1
    generalize s.start = start at hstart
    induction start with
    | nil => exact htext
    | cons c start ih =>
      rw [List.cons_append, splitWeight_cons]
      · exact ih fun d hd => hstart d (List.mem_cons_of_mem _ hd)
      · intro q hq
        exact isSpace_of_blank hstart (c := ';') (by decide) (by rw [(List.cons.inj hq).1]; rfl)
  have htrim : ∀ s : Spaced, trim (s.start ++ (s.tag ++ s.middle)) = trim s.tag := by
    intro s
    rw [← List.append_assoc]
    exact trim_blank s.blank.1 s.blank.2.1
  obtain hnone | ⟨q, hq⟩ := s.weighted
  · -- without a weight a part is its tag
    have hread : ∀ s : Spaced, s.weight = [] → trim s.text = trim s.tag := by
      intro s hnone
      have hafter : Blank (s.middle ++ s.stop) := by
        intro c hc
        exact (List.mem_append.mp hc).elim (s.blank.2.1 c) (s.blank.2.2 c)
      have htext : s.text = s.start ++ s.tag ++ (s.middle ++ s.stop) := by
        simp [Spaced.text, hnone]
      rw [htext, trim_blank s.blank.1 hafter]
    unfold readRange
    rw [hread s hnone, hread s' (hweight ▸ hnone), htag]
  · have hread : ∀ s : Spaced, s.weight = ';' :: 'q' :: '=' :: q →
        splitWeight (trim s.text) = ((s.start ++ (s.tag ++ s.middle)).dropWhile JsString.isSpace,
          (splitWeight (q.rdropWhile JsString.isSpace)).1 ::
            (splitWeight (q.rdropWhile JsString.isSpace)).2) := by
      intro s hq
      have htext : s.text = (s.start ++ (s.tag ++ s.middle)) ++ ';' :: 'q' :: '=' :: (q ++ s.stop) := by
        simp [Spaced.text, hq]
      rw [htext, trim_weight, rdropWhile_blank s.blank.2.2,
        splitWeight_append (plain_dropWhile (hplain s)) ⟨by simp, by simp⟩, splitWeight,
        List.append_nil]
    unfold readRange
    rw [hread s hq, hread s' (hweight ▸ hq)]
    simp only [trim_dropWhile]
    rw [htrim s, htrim s', htag]

theorem detectBrowserLocale_eq (hlower : toLowerCase [] = []) (header : Text) :
    detectBrowserLocale toLowerCase (some header) supported fallback =
      negotiate toLowerCase (readRanges toLowerCase header) supported fallback := by
  cases header with
  | nil =>
    -- the one range of an empty header has no tag
    have hranges : readRanges toLowerCase [] = [⟨[], one⟩] := by
      have hread : readRanges toLowerCase [] = [⟨toLowerCase [], one⟩] := rfl
      rw [hread, hlower]
    rw [hranges]
    rfl
  | cons c header =>
    cases supported with
    | nil =>
      have hends : ∀ r, ends (fun tag => truthy (matchAgainst toLowerCase [] tag)) r = false := by
        intro r
        simp [ends, matchAgainst, truthy]
      unfold negotiate
      dsimp only
      rw [choose_none fun r _ => hends r]
      simp [detectBrowserLocale]
    | cons first rest => rfl

def lowercase (text : Text) : Text := text.map Char.toLower

def english : Text := ['e', 'n']

def french : Text := ['f', 'r']

end Cossack.Core.LocaleNegotiation
