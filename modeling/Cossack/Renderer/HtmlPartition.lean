import Cossack.Renderer.HtmlTokenizer
import Cossack.Lib.Tilings
import Mathlib.Data.List.Induction
import Mathlib.Data.List.ModifyLast

/-! # Tokens partition the source

    A character is read again at most once, after the end of a name or of an
    unquoted value, and then as one of a tag.  So the scan ends, and every token
    begins where the one before it ended. -/

namespace Cossack.Renderer.Html

open Tilings

/-! ## Section 1: One step of the tokenizer -/

theorem runEnd_le {str : Units} {j : Nat} (hj : j ≤ str.length) (stop : Char) :
    runEnd str j stop ≤ str.length := by
  have hle : (str.drop j).findIdx (· == stop.toNat) ≤ (str.drop j).length := List.findIdx_le_length
  rw [List.length_drop] at hle
  unfold runEnd
  omega

theorem nameEnd_le {str : Units} {j : Nat} (hj : j ≤ str.length) (stopAtEquals : Bool) :
    nameEnd str j stopAtEquals ≤ str.length := by
  have hle : (str.drop j).findIdx (endsName stopAtEquals) ≤ (str.drop j).length :=
    List.findIdx_le_length
  rw [List.length_drop] at hle
  unfold nameEnd
  omega

theorem drop_eq {str : Units} {j ch : Nat} (h : str[j]? = some ch) :
    ∃ rest, str.drop j = ch :: rest := by
  obtain ⟨hlt, rfl⟩ := List.getElem?_eq_some_iff.mp h
  exact ⟨_, List.drop_eq_getElem_cons hlt⟩

/-- A run takes in a character that is not its end. -/
theorem lt_runEnd {str : Units} {j ch : Nat} (h : str[j]? = some ch) {stop : Char}
    (hne : ch ≠ stop.toNat) : j < runEnd str j stop := by
  obtain ⟨rest, hrest⟩ := drop_eq h
  simp [runEnd, hrest, List.findIdx_cons, beq_eq_false_iff_ne.mpr hne]

theorem lt_nameEnd {str : Units} {j ch : Nat} (h : str[j]? = some ch) {stopAtEquals : Bool}
    (hne : endsName stopAtEquals ch = false) : j < nameEnd str j stopAtEquals := by
  obtain ⟨rest, hrest⟩ := drop_eq h
  simp [nameEnd, hrest, List.findIdx_cons, hne]

theorem le_nameEnd (str : Units) (j : Nat) (stopAtEquals : Bool) :
    j ≤ nameEnd str j stopAtEquals := Nat.le_add_right _ _

/-- The states in which a character may be left to the next state. -/
def State.leaves : State → Bool
  | .tagName | .attrName | .attrValueUnquoted => true
  | _ => false

/-- The states a step can lead to. -/
def State.next : State → List State
  | .data => [.data, .tagName, .endTag, .comment, .bogusComment]
  | .tagName => [.tagName, .beforeAttrName]
  | .beforeAttrName => [.data, .rawText, .beforeAttrName, .attrName]
  | .afterAttrName =>
      [.data, .rawText, .beforeAttrName, .attrName, .beforeAttrValue, .afterAttrName]
  | .attrName => [.afterAttrName, .beforeAttrName, .beforeAttrValue, .attrName]
  | .beforeAttrValue =>
      [.attrValueQuoted, .data, .rawText, .beforeAttrValue, .attrValueUnquoted]
  | .attrValueQuoted => [.attrValueQuoted, .beforeAttrName]
  | .attrValueUnquoted => [.attrValueUnquoted, .beforeAttrName]
  | .endTag => [.endTag, .data]
  | .comment => [.comment, .data]
  | .bogusComment => [.bogusComment, .data]
  | .rawText => [.rawText, .endTag]

/-- What a step can do. -/
structure Steps (str : Units) (j : Nat) (t t' : Tokenizer) (next : Nat) : Prop where
  state : t'.state ∈ t.state.next
  bound : next ≤ str.length
  progress : j < next ∨ next = j ∧ t.state.leaves = true ∧ t'.state = .beforeAttrName

theorem endStartTag_state (t : Tokenizer) :
    (endStartTag t).state = .rawText ∨ (endStartTag t).state = .data := by
  unfold endStartTag
  split
  · exact .inl rfl
  · exact .inr rfl

theorem at?_lt {str : Units} {j : Nat} {c : Char} (h : at? str j c = true) : j < str.length := by
  simp only [at?, beq_iff_eq] at h
  exact (List.getElem?_eq_some_iff.mp h).choose

variable (toLowerCase : Units → Units)

theorem step_spec {str : Units} {j ch : Nat} (h : str[j]? = some ch) (t : Tokenizer) :
    Steps str j t (step toLowerCase t str j ch).1 (step toLowerCase t str j ch).2 := by
  have hj : j < str.length := (List.getElem?_eq_some_iff.mp h).choose
  have hle := Nat.le_of_lt hj
  have hend := endStartTag_state t
  obtain ⟨state, tagName, rawTextTag, quote, commentTail⟩ := t
  cases state with
  | data =>
    simp only [step]
    split
    · rename_i hne
      exact ⟨by simp [State.next], runEnd_le hle _, .inl (lt_runEnd h hne)⟩
    · split
      · exact ⟨by simp [State.next], hj, .inl (Nat.lt_succ_self j)⟩
      · split
        · exact ⟨by simp [State.next], hj, .inl (Nat.lt_succ_self j)⟩
        · split
          · rename_i hcomment
            simp only [Bool.and_eq_true] at hcomment
            have hlast := at?_lt hcomment.2
            exact ⟨by simp [State.next], hlast, .inl (by omega)⟩
          · split
            · exact ⟨by simp [State.next], hj, .inl (Nat.lt_succ_self j)⟩
            · exact ⟨by simp [State.next], hj, .inl (Nat.lt_succ_self j)⟩
  | tagName =>
    simp only [step]
    split
    · exact ⟨by simp [State.next], hle, .inr ⟨rfl, rfl, rfl⟩⟩
    · rename_i hne
      have hge := le_nameEnd str j false
      exact ⟨by simp [State.next], nameEnd_le hle _, .inl (by omega)⟩
  | beforeAttrName | afterAttrName =>
    simp only [step]
    refine ⟨?_, ?_, .inl ?_⟩ <;> split_ifs <;> simp_all [State.next] <;> tauto
  | attrName =>
    simp only [step]
    split
    · exact ⟨by simp [State.next], hj, .inl (Nat.lt_succ_self j)⟩
    · rename_i hspace
      split
      · exact ⟨by simp [State.next], hle, .inr ⟨rfl, rfl, rfl⟩⟩
      · rename_i hclose
        split
        · exact ⟨by simp [State.next], hj, .inl (Nat.lt_succ_self j)⟩
        · rename_i hequals
          have hname : endsName true ch = false := by
            simp only [not_or] at hclose
            simp [endsName, hspace, hclose, hequals]
          exact ⟨by simp [State.next], nameEnd_le hle _, .inl (lt_nameEnd h hname)⟩
  | beforeAttrValue =>
    simp only [step]
    refine ⟨?_, ?_, .inl ?_⟩ <;> split_ifs <;> simp_all [State.next] <;> tauto
  | attrValueQuoted =>
    simp only [step]
    split
    · rename_i hne
      exact ⟨by simp [State.next], runEnd_le hle _, .inl (lt_runEnd h hne)⟩
    · exact ⟨by simp [State.next], hj, .inl (Nat.lt_succ_self j)⟩
  | attrValueUnquoted =>
    simp only [step]
    split
    · exact ⟨by simp [State.next], hle, .inr ⟨rfl, rfl, rfl⟩⟩
    · rename_i hvalue
      refine ⟨by simp [State.next], ?_, .inl ?_⟩
      · show (if ch = 47 then j + 1 else nameEnd str j false) ≤ str.length
        split
        · exact hj
        · exact nameEnd_le hle _
      · show j < if ch = 47 then j + 1 else nameEnd str j false
        split
        · exact Nat.lt_succ_self j
        · rename_i hslash
          simp only [not_or] at hvalue
          exact lt_nameEnd h (by simp [endsName, hvalue, hslash])
  | endTag | bogusComment =>
    simp only [step]
    split
    · rename_i hne
      exact ⟨by simp [State.next], runEnd_le hle _, .inl (lt_runEnd h hne)⟩
    · exact ⟨by simp [State.next], hj, .inl (Nat.lt_succ_self j)⟩
  | comment =>
    simp only [step]
    split
    · exact ⟨by simp [State.next], hj, .inl (Nat.lt_succ_self j)⟩
    · have hrun := runEnd_le hle '>'
      exact ⟨by simp [State.next], by omega, .inl (by omega)⟩
  | rawText =>
    simp only [step]
    split
    · rename_i hne
      exact ⟨by simp [State.next], runEnd_le hle _, .inl (lt_runEnd h hne)⟩
    · split
      · exact ⟨by simp [State.next], hj, .inl (Nat.lt_succ_self j)⟩
      · exact ⟨by simp [State.next], hj, .inl (Nat.lt_succ_self j)⟩

/-! ## Section 2: The scan -/

/-- A tag is being read, beyond its name. -/
def State.inAttribute : State → Bool
  | .attrName | .afterAttrName | .beforeAttrValue | .attrValueQuoted | .attrValueUnquoted => true
  | _ => false

/-- Nothing is being read but text. -/
def State.isText : State → Bool
  | .data | .rawText => true
  | _ => false

namespace Scan

def ranges (s : Scan) : List (Nat × Nat) := s.tokens.map fun token => (token.first, token.last)

/-- The tokens so far tile the source up to the beginning of the next, which has
    begun where markup is being read. -/
structure Inv (source : Units) (s : Scan) (j : Nat) : Prop where
  bound : j ≤ source.length
  tiles : Tiles 0 s.ranges s.first
  first : s.first ≤ j
  markup : s.t.state.isText = false → s.first < j
  attr : s.t.state.inAttribute = true → s.attributes ≠ []

@[simp] theorem withAttr_first (s : Scan) (f : HtmlAttribute → HtmlAttribute) :
    (s.withAttr f).first = s.first := rfl

@[simp] theorem withAttr_t (s : Scan) (f : HtmlAttribute → HtmlAttribute) :
    (s.withAttr f).t = s.t := rfl

@[simp] theorem withAttr_ranges (s : Scan) (f : HtmlAttribute → HtmlAttribute) :
    (s.withAttr f).ranges = s.ranges := rfl

@[simp] theorem withAttr_attributes (s : Scan) (f : HtmlAttribute → HtmlAttribute) :
    (s.withAttr f).attributes = [] ↔ s.attributes = [] := by
  show List.modifyLast f s.attributes = [] ↔ _
  cases s.attributes using List.reverseRecOn with
  | nil => exact Iff.rfl
  | append_singleton attributes attr => simp [List.modifyLast_concat]

@[simp] theorem visit_first (s : Scan) (type : TokenType) (first last : Nat) :
    (s.visit type first last).first = s.first := rfl

@[simp] theorem visit_ranges (s : Scan) (type : TokenType) (first last : Nat) :
    (s.visit type first last).ranges = s.ranges ++ [(first, last)] := by
  simp [visit, ranges]

@[simp] theorem startTag_ranges (s : Scan) (e : Nat) (closed : Bool) :
    (s.startTag e closed).ranges = s.ranges ++ [(s.first, e)] := by
  simp [startTag]

theorem inv_initial (source : Units) : Inv source initial 0 := by
  refine ⟨Nat.zero_le _, rfl, Nat.le_refl 0, nofun, nofun⟩

/-- The next token has begun. -/
theorem inv_reading {source : Units} {s : Scan} {next : Nat} (htiles : Tiles 0 s.ranges s.first)
    (hlt : s.first < next) (hbound : next ≤ source.length)
    (hattr : s.t.state.inAttribute = true → s.attributes ≠ []) : Inv source s next :=
  ⟨hbound, htiles, Nat.le_of_lt hlt, fun _ => hlt, hattr⟩

/-- A tag or a comment has ended. -/
theorem inv_closed {source : Units} {s : Scan} {next : Nat} (htiles : Tiles 0 s.ranges next)
    (hfirst : s.first = next) (hbound : next ≤ source.length) (htext : s.t.state.isText = true) :
    Inv source s next := by
  refine ⟨hbound, hfirst ▸ htiles, Nat.le_of_eq hfirst, ?_, ?_⟩
  · intro hmarkup
    rw [htext] at hmarkup
    cases hmarkup
  · intro hattr
    cases hstate : s.t.state <;> simp_all [State.isText, State.inAttribute]

/-- The scan between the step of the tokenizer and the body of the loop. -/
structure Stepped (source : Units) (before : State) (j next : Nat) (s : Scan) : Prop where
  state : s.t.state ∈ before.next
  bound : next ≤ source.length
  tiles : Tiles 0 s.ranges s.first
  first : s.first ≤ j
  lt : s.first < next
  text : before.isText = true → j < next
  attr : before.inAttribute = true → s.attributes ≠ []

namespace Stepped

variable {source : Units} {before : State} {j next : Nat} {s : Scan}

/-- The token goes on. -/
theorem reading (h : Stepped source before j next s) {s' : Scan} (hranges : s'.ranges = s.ranges)
    (hfirst : s'.first = s.first) (hattr : s'.t.state.inAttribute = true → s'.attributes ≠ []) :
    Inv source s' next := by
  refine inv_reading ?_ ?_ h.bound hattr
  · rw [hranges, hfirst]
    exact h.tiles
  · rw [hfirst]
    exact h.lt

/-- Text that ends here is a token, if there is any. -/
theorem tiles_text (h : Stepped source before j next s) (type : TokenType) :
    Tiles 0 (if s.first < j then s.visit type s.first j else s).ranges j := by
  have htiles := h.tiles
  have hfirst := h.first
  split
  · rename_i hj
    simpa using htiles.snoc hj
  · have heq : s.first = j := by omega
    rwa [heq] at htiles

/-- The text has ended. -/
theorem opening (h : Stepped source before j next s) (htext : before.isText = true)
    (type : TokenType) {s' : Scan}
    (hranges : s'.ranges = (if s.first < j then s.visit type s.first j else s).ranges)
    (hfirst : s'.first = j) (hattr : s'.t.state.inAttribute = false) : Inv source s' next := by
  refine inv_reading ?_ ?_ h.bound (by simp [hattr])
  · rw [hranges, hfirst]
    exact h.tiles_text type
  · rw [hfirst]
    exact h.text htext

/-- The tag or the comment has ended. -/
theorem closing (h : Stepped source before j next s) {s' : Scan}
    (hranges : s'.ranges = s.ranges ++ [(s.first, next)]) (hfirst : s'.first = next)
    (htext : s'.t.state.isText = true) : Inv source s' next := by
  refine inv_closed ?_ hfirst h.bound htext
  rw [hranges]
  exact h.tiles.snoc h.lt

theorem record (h : Stepped source before j next s) (ch : Nat) :
    Inv source (Scan.record toLowerCase source before j ch next s) next := by
  have hstate := h.state
  have hattr := h.attr
  unfold Scan.record
  cases before with
  | data =>
    have hnot : s.t.state.inAttribute = false := by
      simp only [State.next, List.mem_cons, List.not_mem_nil, or_false] at hstate
      rcases hstate with h | h | h | h | h <;> rw [h] <;> rfl
    have hvisit : ∀ type, (if s.first < j then s.visit type s.first j else s).t = s.t := by
      intro type
      split <;> rfl
    simp only
    split
    · exact h.reading rfl rfl (by simp [hnot])
    · simp only [hvisit]
      by_cases htag : s.t.state = .tagName
      · rw [if_pos htag]
        exact h.opening rfl .text rfl rfl (by simp [hvisit, hnot])
      · rw [if_neg htag]
        exact h.opening rfl .text rfl rfl (by simp [hvisit, hnot])
  | rawText =>
    have hnot : s.t.state.inAttribute = false := by
      simp only [State.next, List.mem_cons, List.not_mem_nil, or_false] at hstate
      rcases hstate with h | h <;> rw [h] <;> rfl
    have hvisit : ∀ type, (if s.first < j then s.visit type s.first j else s).t = s.t := by
      intro type
      split <;> rfl
    simp only
    split
    · exact h.opening rfl (.rawText s.t.rawTextTag) rfl rfl (by simp [hvisit, hnot])
    · exact h.reading rfl rfl (by simp [hnot])
  | endTag | comment | bogusComment =>
    simp only [State.next, List.mem_cons, List.not_mem_nil, or_false] at hstate
    simp only
    split
    · rename_i hdata
      refine h.closing (visit_ranges _ _ _ _) rfl ?_
      show State.isText s.t.state = true
      rw [hdata]
      rfl
    · refine h.reading rfl rfl ?_
      rcases hstate with h | h <;> simp [h, State.inAttribute]
  | tagName =>
    have hnot : s.t.state.inAttribute = false := by
      simp only [State.next, List.mem_cons, List.not_mem_nil, or_false] at hstate
      rcases hstate with h | h <;> rw [h] <;> rfl
    simp only
    split
    · exact h.reading rfl rfl (by simp [hnot])
    · exact h.reading rfl rfl (by simp [hnot])
  | beforeAttrName | afterAttrName =>
    simp only [State.next, List.mem_cons, List.not_mem_nil, or_false] at hstate
    simp only
    split
    · exact h.reading rfl rfl (by simp)
    · split
      · rename_i hend
        refine h.closing (startTag_ranges _ _ _) rfl ?_
        show State.isText s.t.state = true
        rcases hend with h | h <;> rw [h] <;> rfl
      · refine h.reading rfl rfl ?_
        intro hin
        first
          | exact hattr rfl
          | rcases hstate with h | h | h | h <;> simp_all [State.inAttribute]
  | attrName =>
    simp only
    split
    · exact h.reading rfl rfl (fun _ => hattr rfl)
    · refine h.reading (withAttr_ranges _ _) rfl ?_
      intro _
      rw [Ne, withAttr_attributes]
      exact hattr rfl
  | beforeAttrValue =>
    have hne := hattr rfl
    simp only
    rw [if_neg hne]
    split
    · refine h.reading (withAttr_ranges _ _) rfl ?_
      intro _
      rwa [Ne, withAttr_attributes]
    · split
      · refine h.reading (withAttr_ranges _ _) rfl ?_
        intro _
        rwa [Ne, withAttr_attributes]
      · split
        · rename_i hend
          refine h.closing ?_ rfl ?_
          · exact (startTag_ranges _ _ _).trans (by simp)
          · show State.isText s.t.state = true
            rcases hend with h | h <;> rw [h] <;> rfl
        · exact h.reading rfl rfl (fun _ => hne)
  | attrValueQuoted | attrValueUnquoted =>
    have hne := hattr rfl
    simp only
    split
    · refine h.reading (withAttr_ranges _ _) rfl ?_
      intro _
      rwa [Ne, withAttr_attributes]
    · exact h.reading rfl rfl (fun _ => hne)

end Stepped

theorem Inv.stepped {source : Units} {s : Scan} {j ch : Nat} (h : Inv source s j)
    (hch : source[j]? = some ch) :
    Stepped source s.t.state j (step toLowerCase s.t source j ch).2
      { s with t := (step toLowerCase s.t source j ch).1 } := by
  obtain ⟨hstate, hbound, hprogress⟩ := step_spec toLowerCase hch s.t
  have hfirst := h.first
  refine ⟨hstate, hbound, h.tiles, hfirst, ?_, ?_, h.attr⟩
  · rcases hprogress with hlt | ⟨hstay, hleaves, -⟩
    · exact Nat.lt_of_le_of_lt hfirst hlt
    · show s.first < _
      rw [hstay]
      apply h.markup
      cases hs : s.t.state <;> simp_all [State.isText, State.leaves]
  · intro htext
    rcases hprogress with hlt | ⟨-, hleaves, -⟩
    · exact hlt
    · cases hs : s.t.state <;> simp_all [State.isText, State.leaves]

theorem Inv.advance {source : Units} {s : Scan} {j ch : Nat} (h : Inv source s j)
    (hch : source[j]? = some ch) :
    Inv source (s.advance toLowerCase source j ch).1 (s.advance toLowerCase source j ch).2 :=
  (h.stepped toLowerCase hch).record toLowerCase ch

@[simp] theorem record_t (source : Units) (before : State) (j ch next : Nat) (s : Scan) :
    (record toLowerCase source before j ch next s).t = s.t := by
  unfold record
  cases before <;> simp only <;> split_ifs <;> rfl

/-- The characters that are still to be read, those that are read twice counted
    twice. -/
def remaining (source : Units) (s : Scan) (j : Nat) : Nat :=
  2 * (source.length - j) + if s.t.state.leaves then 1 else 0

theorem remaining_advance {source : Units} {s : Scan} {j ch : Nat} (hch : source[j]? = some ch) :
    remaining source (s.advance toLowerCase source j ch).1 (s.advance toLowerCase source j ch).2 <
      remaining source s j := by
  obtain ⟨-, hbound, hprogress⟩ := step_spec toLowerCase hch s.t
  simp only [remaining, advance, record_t]
  rcases hprogress with hlt | ⟨hstay, hleaves, hbefore⟩
  · have hj := (List.getElem?_eq_some_iff.mp hch).choose
    split <;> split <;> omega
  · rw [hstay, hleaves, hbefore]
    simp [State.leaves]

/-! ## Section 3: The end of the scan -/

/-- The loop ends, at the end of the source. -/
theorem Inv.run {source : Units} {s : Scan} {j fuel : Nat} (h : Inv source s j)
    (hfuel : remaining source s j ≤ fuel) :
    ∃ s', Inv source s' source.length ∧
      ∀ more, fuel ≤ more → Scan.run toLowerCase source more s j = some s' := by
  induction fuel generalizing s j with
  | zero =>
    have hj : source.length ≤ j := by
      unfold remaining at hfuel
      omega
    have heq : j = source.length := Nat.le_antisymm h.bound hj
    refine ⟨s, heq ▸ h, ?_⟩
    intro more _
    cases more <;> simp [Scan.run, hj]
  | succ fuel ih =>
    rcases hch : source[j]? with _ | ch
    · have hj : source.length ≤ j := List.getElem?_eq_none_iff.mp hch
      have heq : j = source.length := Nat.le_antisymm h.bound hj
      refine ⟨s, heq ▸ h, ?_⟩
      intro more _
      cases more <;> simp [Scan.run, hj]
    · have hless := remaining_advance toLowerCase (s := s) hch
      obtain ⟨s', hs', hrun⟩ := ih (h.advance toLowerCase hch) (by omega)
      refine ⟨s', hs', ?_⟩
      intro more hmore
      obtain ⟨more, rfl⟩ : ∃ m, more = m + 1 := ⟨more - 1, by omega⟩
      simp only [Scan.run, hch]
      exact hrun more (by omega)

/-- What is left at the end is one token. -/
theorem Inv.finish {source : Units} {s : Scan} (h : Inv source s source.length) :
    Tiles 0 (s.finish source).ranges source.length := by
  have htiles := h.tiles
  have hfirst := h.first
  unfold Scan.finish
  simp only
  split
  · rename_i hlt
    have hlast := htiles.snoc hlt
    split <;> simpa using hlast
  · have heq : s.first = source.length := by omega
    rwa [heq] at htiles

end Scan

/-! ## Section 4: The partition -/

/-- The part of the source that a token covers. -/
def HtmlToken.source (token : HtmlToken) (source : Units) : Units :=
  slice source token.first token.last

/-- For any source the scan ends, and its tokens follow one another from the
    beginning of the source to its end, none of them empty. -/
theorem forEachHtmlToken_partition (source : Units) :
    ∃ tokens, (∀ fuel, 2 * source.length ≤ fuel →
        forEachHtmlToken toLowerCase source fuel = some tokens) ∧
      Tiles 0 (tokens.map fun token => (token.first, token.last)) source.length ∧
      tokens.flatMap (fun token => token.source source) = source := by
  obtain ⟨s, hs, hrun⟩ := (Scan.inv_initial source).run toLowerCase (Nat.le_refl _)
  have htiles := hs.finish
  refine ⟨(s.finish source).tokens, ?_, htiles, ?_⟩
  · intro fuel hfuel
    have hremaining : Scan.remaining source .initial 0 ≤ fuel := by
      simpa [Scan.remaining, Scan.initial, createTokenizer, State.leaves] using hfuel
    rw [forEachHtmlToken, hrun fuel hremaining]
    rfl
  · have hparts := htiles.flatten source
    simpa [Scan.ranges, List.flatMap_map, HtmlToken.source, slice] using hparts

end Cossack.Renderer.Html
