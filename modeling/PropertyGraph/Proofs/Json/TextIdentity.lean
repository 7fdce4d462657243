/-
  PropertyGraph.Proofs.Json.TextIdentity

  The compact text of a value is the text of no other value, and the text that stands for an absent
  value is the text of none.  The characters of a value say where it ends, whatever comes after
  them, so that an array or an object is taken apart into its parts; a number ends before the first
  character that no number is written with.  How deep the values nest plays no part.
-/
import PropertyGraph.Proofs.Json.CompactText
import PropertyGraph.Proofs.Json.NumberIdentity
import PropertyGraph.Proofs.PropertyPath.Grammar

namespace PropertyGraph

open Text (Stops stops_nil stops_cons append_inj_of_stops)

/-! ## The characters of numbers -/

/-- The characters that numbers are written with. -/
def isNumberChar (c : Char) : Bool := c.isDigit || c == '.' || c == 'e' || c == '+' || c == '-'

namespace Decimal.Double

theorem isNumberChar_of_mem_toDigits {n : Nat} : ∀ c ∈ Nat.toDigits 10 n, isNumberChar c = true := by
  intro c hc
  rw [isNumberChar, Json.isDigit_toDigits n c hc]
  rfl

section Digits

variable {cs : List Char} (h : ∀ c ∈ cs, isNumberChar c = true)

include h

theorem isNumberChar_of_mem_plainText (point : Int) :
    ∀ c ∈ (plainText cs point).toList, isNumberChar c = true := by
  have htake : ∀ c ∈ cs.take point.toNat, isNumberChar c = true :=
    fun c hc => h c (List.mem_of_mem_take hc)
  have hdrop : ∀ c ∈ cs.drop point.toNat, isNumberChar c = true :=
    fun c hc => h c (List.mem_of_mem_drop hc)
  have hzeros : ∀ count, ∀ c ∈ List.replicate count '0', isNumberChar c = true := by
    intro count c hc
    rw [List.eq_of_mem_replicate hc]
    rfl
  have hzero : ∀ c ∈ ['0', '.'], isNumberChar c = true := by simp [isNumberChar]
  have hpoint : ∀ c ∈ ['.'], isNumberChar c = true := by simp [isNumberChar]
  have hend : ∀ c ∈ ['.', '0'], isNumberChar c = true := by simp [isNumberChar]
  rw [plainText]
  split
  · rw [String.toList_append, String.toList_ofList, String.toList_ofList]
    exact List.forall_mem_append.2 ⟨hzero, List.forall_mem_append.2 ⟨hzeros _, h⟩⟩
  · split
    · rw [String.toList_append, String.toList_ofList, String.toList_ofList]
      exact List.forall_mem_append.2 ⟨List.forall_mem_append.2 ⟨h, hzeros _⟩, hend⟩
    · rw [String.toList_append, String.toList_append, String.toList_ofList, String.toList_ofList,
        String.toList_ofList]
      exact List.forall_mem_append.2 ⟨List.forall_mem_append.2 ⟨htake, hpoint⟩, hdrop⟩

theorem isNumberChar_of_mem_exponentText (exponent : Int) :
    ∀ c ∈ (exponentText cs exponent).toList, isNumberChar c = true := by
  have hmark : ∀ c ∈ (if 0 ≤ exponent then "e+" else "e-").toList, isNumberChar c = true := by
    split <;> simp [isNumberChar]
  have hdigits : ∀ c ∈ (toString exponent.natAbs).toList, isNumberChar c = true := by
    rw [Nat.toString_eq_repr, Nat.toList_repr]
    exact isNumberChar_of_mem_toDigits
  have hpoint : isNumberChar '.' = true := rfl
  unfold exponentText
  rw [String.toList_append, String.toList_append]
  refine List.forall_mem_append.2 ⟨List.forall_mem_append.2 ⟨?_, hmark⟩, hdigits⟩
  match cs, h with
  | [], _ => simp
  | [d], h => simpa [Char.toString] using h
  | d :: e :: rest, h => simpa [Char.toString, hpoint] using h

end Digits

theorem isNumberChar_of_mem_text (x : Double) : ∀ c ∈ x.text.toList, isNumberChar c = true := by
  have hsign : ∀ c ∈ (if x.negative then "-" else "").toList, isNumberChar c = true := by
    split <;> simp [isNumberChar]
  have hzero : ∀ c ∈ "0.0".toList, isNumberChar c = true := by simp [isNumberChar]
  have hstripped : ∀ c ∈ stripZeros (Nat.toDigits 10 x.shortest.1), isNumberChar c = true := by
    intro c hc
    rw [stripZeros, List.mem_reverse] at hc
    exact isNumberChar_of_mem_toDigits c
      (List.mem_reverse.1 ((List.dropWhile_sublist _).subset hc))
  rw [text]
  split
  · rw [String.toList_append]
    exact List.forall_mem_append.2 ⟨hsign, hzero⟩
  · simp only
    split
    · rw [String.toList_append]
      exact List.forall_mem_append.2 ⟨hsign, isNumberChar_of_mem_plainText hstripped _⟩
    · rw [String.toList_append]
      exact List.forall_mem_append.2 ⟨hsign, isNumberChar_of_mem_exponentText hstripped _⟩

end Decimal.Double

namespace Number

theorem isNumberChar_of_mem_text (n : Number) : ∀ c ∈ n.text.toList, isNumberChar c = true := by
  cases n with
  | float x => exact x.isNumberChar_of_mem_text
  | integer i =>
    cases i with
    | ofNat n =>
      rw [Int.ofNat_eq_natCast, text_ofNat]
      exact Decimal.Double.isNumberChar_of_mem_toDigits
    | negSucc n =>
      rw [text_negSucc]
      exact List.forall_mem_cons.2 ⟨rfl, Decimal.Double.isNumberChar_of_mem_toDigits⟩

/-- What may follow a number is not a character of numbers. -/
theorem stops_of_delimited {rest : List Char} (h : Json.Delimited rest) :
    Stops isNumberChar rest := by
  cases h with
  | nil => exact stops_nil
  | _ => exact stops_cons rfl _

/-- The characters of a number say which number it is and where it ends. -/
theorem chars_inj {n m : Number} (hn : n.Normalized) (hm : m.Normalized) {rest rest' : List Char}
    (hrest : Json.Delimited rest) (hrest' : Json.Delimited rest')
    (h : n.text.toList ++ rest = m.text.toList ++ rest') : n = m ∧ rest = rest' := by
  obtain ⟨htext, hafter⟩ := append_inj_of_stops n.isNumberChar_of_mem_text
    (stops_of_delimited hrest) m.isNumberChar_of_mem_text (stops_of_delimited hrest') h
  exact ⟨text_inj hn hm (String.toList_inj.1 htext), hafter⟩

end Number

namespace Json

/-! ## Parts of a bracket -/

section Parts

variable {α : Type} {part : α → List Char} {close : Char}

/-- The characters of parts with commas between them. -/
def separated (part : α → List Char) : List α → List Char
  | [] => []
  | a :: more => part a ++ more.flatMap fun b => ',' :: part b

/-- Parts behind another one end with the bracket that closes on them. -/
theorem flatMap_comma_inj (hclose : close ≠ ',') {as bs : List α} {rest rest' : List Char}
    (hrest : Delimited (close :: rest)) (hrest' : Delimited (close :: rest'))
    (hparts : ∀ a ∈ as, ∀ b ∈ bs, ∀ rest rest', Delimited rest → Delimited rest' →
      part a ++ rest = part b ++ rest' → a = b ∧ rest = rest')
    (h : (as.flatMap fun a => ',' :: part a) ++ close :: rest
      = (bs.flatMap fun b => ',' :: part b) ++ close :: rest') : as = bs ∧ rest = rest' := by
  -- Behind each part stands a comma or the closing bracket, so every part is delimited.
  have hmore : ∀ (more : List α) (rest : List Char), Delimited (close :: rest) →
      Delimited ((more.flatMap fun b => ',' :: part b) ++ close :: rest) := by
    intro more rest hrest
    cases more with
    | nil => exact hrest
    | cons b more => exact .comma _
  induction as generalizing bs with
  | nil =>
    cases bs with
    | nil => exact ⟨rfl, (List.cons.inj h).2⟩
    | cons b bs => exact absurd (List.cons.inj h).1 hclose
  | cons a as ih =>
    cases bs with
    | nil => exact absurd (List.cons.inj h).1.symm hclose
    | cons b bs =>
      have hchars : part a ++ ((as.flatMap fun a => ',' :: part a) ++ close :: rest)
          = part b ++ ((bs.flatMap fun b => ',' :: part b) ++ close :: rest') := by
        simpa using h
      obtain ⟨rfl, hafter⟩ := hparts a (List.mem_cons_self ..) b (List.mem_cons_self ..) _ _
        (hmore as rest hrest) (hmore bs rest' hrest') hchars
      obtain ⟨rfl, hend⟩ := ih (fun a ha b hb => hparts a (List.mem_cons_of_mem _ ha) b
        (List.mem_cons_of_mem _ hb)) hafter
      exact ⟨rfl, hend⟩

/-- If the characters of each part say which part it is and where it ends, then so do the characters
    of all parts up to the bracket that closes on them: they are those of one more part behind a
    comma. -/
theorem separated_inj (hclose : close ≠ ',') {as bs : List α} {rest rest' : List Char}
    (hrest : Delimited (close :: rest)) (hrest' : Delimited (close :: rest'))
    (hhead : ∀ a ∈ as ++ bs, ∃ t more, part a = t :: more ∧ t ≠ close)
    (hparts : ∀ a ∈ as, ∀ b ∈ bs, ∀ rest rest', Delimited rest → Delimited rest' →
      part a ++ rest = part b ++ rest' → a = b ∧ rest = rest')
    (h : separated part as ++ close :: rest = separated part bs ++ close :: rest') :
    as = bs ∧ rest = rest' := by
  cases as with
  | nil =>
    cases bs with
    | nil => exact ⟨rfl, (List.cons.inj h).2⟩
    | cons b bs =>
      obtain ⟨t, more, hb, ht⟩ := hhead b (by simp)
      rw [separated, separated, hb] at h
      exact absurd (List.cons.inj h).1.symm ht
  | cons a as =>
    cases bs with
    | nil =>
      obtain ⟨t, more, ha, ht⟩ := hhead a (by simp)
      rw [separated, separated, ha] at h
      exact absurd (List.cons.inj h).1 ht
    | cons b bs =>
      refine flatMap_comma_inj hclose hrest hrest' hparts ?_
      simpa [separated] using h

end Parts

theorem itemsChars_eq_separated (items : List Json) :
    itemsChars items = separated chars items := by
  cases items with
  | nil => rfl
  | cons v items =>
    induction items generalizing v with
    | nil => simp [itemsChars, separated]
    | cons w items ih => simp [itemsChars, ih w, separated]

/-- The characters of one entry. -/
def entryChars (e : String × Json) : List Char := stringChars e.1 ++ ':' :: chars e.2

theorem entriesChars_eq_separated (entries : List (String × Json)) :
    entriesChars entries = separated entryChars entries := by
  cases entries with
  | nil => rfl
  | cons e entries =>
    induction entries generalizing e with
    | nil => simp [entriesChars, separated, entryChars]
    | cons e' entries ih => simp [entriesChars, ih e', separated, entryChars]

/-! ## Values -/

/-- The characters of a string say which string it is and where it ends. -/
theorem stringChars_inj {s t : String} {rest rest' : List Char}
    (h : stringChars s ++ rest = stringChars t ++ rest') : s = t ∧ rest = rest' := by
  have htokens : Token.string (some s) :: scan .between rest
      = .string (some t) :: scan .between rest' := by
    rw [← scan_string, ← scan_string, h]
  obtain rfl : s = t := Option.some.inj (Token.string.inj (List.cons.inj htokens).1)
  exact ⟨rfl, List.append_cancel_left h⟩

/-- No value begins with a bracket that closes. -/
theorem chars_head {v : Json} (h : v.Proper Number.Legible) :
    ∃ t more, v.chars = t :: more ∧ t ≠ ']' := by
  cases v with
  | null => exact ⟨'n', _, rfl, by decide⟩
  | bool b => cases b <;> exact ⟨_, _, rfl, by decide⟩
  | string s => exact ⟨'"', _, rfl, by decide⟩
  | array items => exact ⟨'[', _, rfl, by decide⟩
  | object entries => exact ⟨'\x7b', _, rfl, by decide⟩
  | number n =>
    obtain ⟨numeral, -, hnumeral, -⟩ := h
    cases htext : n.text.toList with
    | nil => simp [Number.numeral?, htext, Numeral.ofChars?] at hnumeral
    | cons t more =>
      refine ⟨t, more, htext, ?_⟩
      rintro rfl
      have hchar := n.isNumberChar_of_mem_text ']' (htext ▸ List.mem_cons_self ..)
      exact absurd hchar (by decide)

/-- The characters of a value say which value it is and where it ends. -/
theorem chars_inj (v : Json) (hv : v.Proper Number.Normalized) {w : Json}
    (hw : w.Proper Number.Normalized) {rest rest' : List Char} (hrest : Delimited rest)
    (hrest' : Delimited rest') (h : v.chars ++ rest = w.chars ++ rest') :
    v = w ∧ rest = rest' := by
  have hlegible : ∀ u : Json, u.Proper Number.Normalized → u.Proper Number.Legible :=
    Proper.mono Number.stable_normalized.legible
  -- values of two kinds have different first tokens
  have htokens : valueTokens v ++ scan .between rest = valueTokens w ++ scan .between rest' := by
    rw [← scan_chars v (hlegible v hv) hrest, h, scan_chars w (hlegible w hw) hrest']
  match v, hv with
  | .null, _ =>
    cases w with
    | null => exact ⟨rfl, List.append_cancel_left h⟩
    | _ => cases (List.cons.inj htokens).1
  | .bool b, _ =>
    cases w with
    | bool b' =>
      obtain rfl := Token.bool.inj (List.cons.inj htokens).1
      exact ⟨rfl, List.append_cancel_left h⟩
    | _ => cases (List.cons.inj htokens).1
  | .number n, hv =>
    cases w with
    | number m =>
      obtain ⟨rfl, hafter⟩ := Number.chars_inj hv hw hrest hrest' h
      exact ⟨rfl, hafter⟩
    | _ => cases (List.cons.inj htokens).1
  | .string s, _ =>
    cases w with
    | string s' =>
      obtain ⟨rfl, hafter⟩ := stringChars_inj h
      exact ⟨rfl, hafter⟩
    | _ => cases (List.cons.inj htokens).1
  | .array items, hv =>
    cases w with
    | array items' =>
      have hchars : separated chars items ++ ']' :: rest
          = separated chars items' ++ ']' :: rest' := by
        simpa [chars, itemsChars_eq_separated] using h
      have hhead : ∀ u ∈ items ++ items', ∃ t more, u.chars = t :: more ∧ t ≠ ']' := by
        intro u hu
        rcases List.mem_append.1 hu with hu | hu
        · exact chars_head (hlegible u (properItems_iff.1 hv u hu))
        · exact chars_head (hlegible u (properItems_iff.1 hw u hu))
      obtain ⟨rfl, hafter⟩ := separated_inj (by decide) (.closeArray _) (.closeArray _) hhead
        (fun v hmem w hmem' _ _ => chars_inj v (properItems_iff.1 hv v hmem)
          (properItems_iff.1 hw w hmem')) hchars
      exact ⟨rfl, hafter⟩
    | _ => cases (List.cons.inj htokens).1
  | .object entries, hv =>
    cases w with
    | object entries' =>
      have hchars : separated entryChars entries ++ '\x7d' :: rest
          = separated entryChars entries' ++ '\x7d' :: rest' := by
        simpa [chars, entriesChars_eq_separated] using h
      have hparts : ∀ e ∈ entries, ∀ e' ∈ entries', ∀ rest rest', Delimited rest →
          Delimited rest' → entryChars e ++ rest = entryChars e' ++ rest' →
          e = e' ∧ rest = rest' := by
        intro e hmem e' hmem' rest rest' hrest hrest' h
        -- the recursion goes to a value that stands in the list
        have hsmaller : sizeOf e.2 < sizeOf entries := by
          refine Nat.lt_trans ?_ (List.sizeOf_lt_of_mem hmem)
          cases e
          simp
        rw [entryChars, entryChars, List.append_assoc, List.append_assoc] at h
        obtain ⟨hkey, hafter⟩ := stringChars_inj h
        obtain ⟨hvalue, hend⟩ := chars_inj e.2 (properEntries_iff.1 hv.2 e hmem)
          (properEntries_iff.1 hw.2 e' hmem') hrest hrest' (List.cons.inj hafter).2
        exact ⟨Prod.ext hkey hvalue, hend⟩
      obtain ⟨rfl, hafter⟩ := separated_inj (by decide) (.closeObject _) (.closeObject _)
        (fun e _ => ⟨'"', _, rfl, by decide⟩) hparts hchars
      exact ⟨rfl, hafter⟩
    | _ => cases (List.cons.inj htokens).1
termination_by v

/-- The text of a value is the text of no other value. -/
theorem text_eq_text_iff {v w : Json} (hv : v.Proper Number.Normalized)
    (hw : w.Proper Number.Normalized) : v.text = w.text ↔ v = w := by
  constructor
  · intro h
    have hchars : v.chars ++ [] = w.chars ++ [] := by
      rw [List.append_nil, List.append_nil]
      exact String.ofList_injective h
    exact (chars_inj v hv hw .nil .nil hchars).1
  · rintro rfl
    rfl

/-- No value has the text that stands for an absent one. -/
theorem absentText_ne_text {v : Json} (hv : v.Proper Number.InRange) : absentText ≠ v.text := by
  intro h
  have htokens : valueTokens v = [.bad] := by
    rw [← tokens_text (Proper.mono Number.stable_inRange.legible v hv), ← h]
    rfl
  cases v with
  | array items => cases (List.cons.inj htokens).1
  | object entries => cases (List.cons.inj htokens).1
  | _ => cases htokens

/-- What may be absent has a canonical text of its own. -/
theorem canonical_eq_canonical_iff {found : Option Json} {v : Json}
    (hv : v.Proper Number.Normalized)
    (hfound : ∀ w, found = some w → w.Proper Number.Normalized) :
    canonical found = canonical (some v) ↔ found = some v := by
  cases found with
  | none =>
    have hne : canonical none ≠ canonical (some v) :=
      absentText_ne_text (Proper.mono (fun _ => Number.Normalized.inRange) v hv)
    exact ⟨fun h => absurd h hne, fun h => by cases h⟩
  | some w => rw [canonical, canonical, text_eq_text_iff (hfound w rfl) hv, Option.some_inj]

/-- The text of a string is the text of no other value, of whatever kind and however large: only
    strings begin with a quote. -/
theorem text_eq_string_iff {v : Json} {s : String} :
    v.text = (Json.string s).text ↔ v = .string s := by
  refine ⟨fun h => ?_, fun h => h ▸ rfl⟩
  have hchars : v.chars = stringChars s := String.ofList_injective h
  have hhead : v.chars = '"' :: (s.toList.flatMap escapeChar ++ ['"']) := hchars
  cases v with
  | string t =>
    have hquoted : stringChars t ++ [] = stringChars s ++ [] := congrArg (· ++ []) hchars
    rw [(stringChars_inj hquoted).1]
  | number n =>
    have hquote : '"' ∈ n.text.toList := by
      rw [show n.text.toList = _ from hhead]
      exact List.mem_cons_self ..
    exact absurd (n.isNumberChar_of_mem_text _ hquote) (by decide)
  | null => cases hhead
  | bool b => cases b <;> cases hhead
  | array items => cases hhead
  | object entries => cases hhead

theorem canonical_eq_string_iff {found : Option Json} {s : String} :
    canonical found = canonical (some (.string s)) ↔ found = some (.string s) := by
  cases found with
  | none => exact ⟨fun h => absurd h (absentText_ne_text trivial), fun h => by cases h⟩
  | some v => rw [canonical, canonical, text_eq_string_iff, Option.some_inj]

end Json

end PropertyGraph
