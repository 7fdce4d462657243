/-
  PropertyGraph.Proofs.Json.PrintedText

  Scanning a printed value gives its tokens and nothing else.  Blanks between tokens leave no
  trace; a string is closed by its quote, so anything may follow it; a number goes on as
  long as it can, so what follows it must begin with a delimiter.
-/
import Mathlib.Tactic.ByContra
import Mathlib.Tactic.IntervalCases
import Mathlib.Tactic.SplitIfs
import PropertyGraph.Proofs.Json.NumberText
import PropertyGraph.Proofs.Json.Proper

namespace PropertyGraph.Json

/-! ## The tokens of a value -/

mutual

/-- The tokens of a value. -/
def valueTokens : Json → List Token
  | .null => [.null]
  | .bool b => [.bool b]
  | .number n => [.number (some n.reread)]
  | .string s => [.string (some s)]
  | .array items => .openArray :: itemTokens items ++ [.closeArray]
  | .object entries => .openObject :: entryTokens entries ++ [.closeObject]

/-- The tokens of the items of an array, with commas between them. -/
def itemTokens : List Json → List Token
  | [] => []
  | [v] => valueTokens v
  | v :: rest => valueTokens v ++ .comma :: itemTokens rest

/-- The tokens of the entries of an object, with commas between them. -/
def entryTokens : List (String × Json) → List Token
  | [] => []
  | [(k, v)] => .string (some k) :: .colon :: valueTokens v
  | (k, v) :: rest => .string (some k) :: .colon :: valueTokens v ++ .comma :: entryTokens rest

end

/-! ## Delimiters -/

/-- What may follow a number: nothing, or a text that no number goes on with. -/
inductive Delimited : List Char → Prop
  | nil : Delimited []
  | comma (rest) : Delimited (',' :: rest)
  | newline (rest) : Delimited ('\n' :: rest)
  | closeArray (rest) : Delimited (']' :: rest)
  | closeObject (rest) : Delimited ('\x7d' :: rest)

theorem delimited_newline (level : Nat) (rest : List Char) :
    Delimited (newline level ++ rest) := .newline _

/-- Blanks leave no trace. -/
theorem scan_blanks (k : Nat) (rest : List Char) :
    scan .between (List.replicate k ' ' ++ rest) = scan .between rest := by
  induction k with
  | zero => rfl
  | succ k ih => exact ih

/-- A new line leaves no trace. -/
theorem scan_newline (level : Nat) (rest : List Char) :
    scan .between (newline level ++ rest) = scan .between rest := scan_blanks _ rest

/-! ## Numbers -/

/-- A character that a numeral begins with sets the scanner on that numeral. -/
theorem begin_of_begun? {c : Char} {n : Numeral} (h : Numeral.begun? c = some n) :
    begin c = ([], .number n) := by
  by_cases hminus : c = '-'
  · subst hminus
    have hn : n = .start .sign true [] := by
      have hbegun : Numeral.begun? '-' = some (.start .sign true []) := rfl
      rw [hbegun] at h
      exact (Option.some.inj h).symm
    rw [hn]
    rfl
  · have hdigit : c.isDigit = true := by
      by_contra hnot
      simp [Numeral.begun?, hminus, digit?, hnot] at h
    obtain ⟨d, hd, rfl⟩ := exists_digitChar hdigit
    revert h
    interval_cases d <;> rintro ⟨⟩ <;> rfl

/-- The scanner takes in what a numeral goes on with. -/
theorem scan_extend? {n next : Numeral} {cs : List Char} (h : n.extend? cs = some next)
    (rest : List Char) : scan (.number n) (cs ++ rest) = scan (.number next) rest := by
  induction cs generalizing n with
  | nil =>
    obtain rfl : n = next := Option.some.inj h
    rfl
  | cons c cs ih =>
    cases hstep : n.step? c with
    | none => simp [Numeral.extend?, hstep] at h
    | some m =>
      have hm : m.extend? cs = some next := by simpa [Numeral.extend?, hstep] using h
      rw [List.cons_append, scan, step, hstep]
      exact ih hm

/-- A complete numeral ends before a delimiter. -/
theorem scan_complete {n : Numeral} (h : n.complete = true) {rest : List Char}
    (hrest : Delimited rest) :
    scan (.number n) rest = .number n.value? :: scan .between rest := by
  have hstage : n.stage = .zero ∨ n.stage = .whole ∨ n.stage = .fraction ∨ n.stage = .exponent := by
    revert h
    cases hs : n.stage <;> simp [Numeral.complete, hs]
  have hstop : ∀ c, c = ',' ∨ c = '\n' ∨ c = ']' ∨ c = '\x7d' →
      n.step? c = none ∧ n.mayEndBefore (some c) = true := by
    rintro c (rfl | rfl | rfl | rfl) <;> rcases hstage with hs | hs | hs | hs <;>
      simp [Numeral.step?, Numeral.mayEndBefore, digit?, hs]
  have hcons : ∀ c tail, c = ',' ∨ c = '\n' ∨ c = ']' ∨ c = '\x7d' →
      scan (.number n) (c :: tail) = .number n.value? :: scan .between (c :: tail) := by
    intro c tail hc
    obtain ⟨hstep, hend⟩ := hstop c hc
    simp [scan, step, hstep, hend]
  cases hrest with
  | nil =>
    have hend : n.mayEndBefore none = true := by
      rcases hstage with hs | hs | hs | hs <;> simp [Numeral.mayEndBefore, hs]
    simp [scan, atEnd, hend]
  | comma tail => exact hcons _ _ (.inl rfl)
  | newline tail => exact hcons _ _ (.inr (.inl rfl))
  | closeArray tail => exact hcons _ _ (.inr (.inr (.inl rfl)))
  | closeObject tail => exact hcons _ _ (.inr (.inr (.inr rfl)))

/-- A legible number is scanned as the number it reads as. -/
theorem scan_number {n : Number} (h : n.Legible) {rest : List Char} (hrest : Delimited rest) :
    scan .between (n.text.toList ++ rest) = .number (some n.reread) :: scan .between rest := by
  obtain ⟨numeral, hnumeral, hcomplete, hvalue⟩ := h.value
  cases htext : n.text.toList with
  | nil => simp [Number.numeral?, htext, Numeral.ofChars?] at hnumeral
  | cons c cs =>
    cases hbegun : Numeral.begun? c with
    | none => simp [Number.numeral?, htext, Numeral.ofChars?, hbegun] at hnumeral
    | some first =>
      have hextend : first.extend? cs = some numeral := by
        simpa [Number.numeral?, htext, Numeral.ofChars?, hbegun] using hnumeral
      rw [List.cons_append, scan, step, begin_of_begun? hbegun]
      show scan (.number first) (cs ++ rest) = _
      rw [scan_extend? hextend, scan_complete hcomplete hrest, hvalue]

/-! ## Strings -/

/-- A hexadecimal digit that was written is read back. -/
theorem hexValue?_hexDigit {n : Nat} (h : n < 16) : hexValue? (hexDigit n) = some n := by
  interval_cases n <;> rfl

/-- The part of a string that consists of whole characters. -/
def wholePart (chars : List Char) : Partial := ⟨chars, none, true⟩

/-- An escaped character is taken in as the character. -/
theorem scan_escapeChar (chars : List Char) (c : Char) (rest : List Char) :
    scan (.text (wholePart chars)) (escapeChar c ++ rest)
      = scan (.text (wholePart (c :: chars))) rest := by
  unfold escapeChar
  split_ifs with h₁ h₂ h₃ h₄ h₅ h₆ h₇ h₈
  · subst h₁; rfl
  · subst h₂; rfl
  · subst h₃; rfl
  · subst h₄; rfl
  · subst h₅; rfl
  · subst h₆; rfl
  · subst h₇; rfl
  · -- a control: two digits of its code after a fixed prefix
    have hhigh : hexValue? (hexDigit (c.toNat / 16)) = some (c.toNat / 16) :=
      hexValue?_hexDigit (by omega)
    have hlow : hexValue? (hexDigit (c.toNat % 16)) = some (c.toNat % 16) :=
      hexValue?_hexDigit (by omega)
    have hescaped : ∀ tail, scan (.text (wholePart chars)) ('\\' :: 'u' :: '0' :: '0' :: tail)
        = scan (.unit (wholePart chars) 2 0) tail := fun _ => rfl
    have hunit : (wholePart chars).pushUnit (c.toNat / 16 * 16 + c.toNat % 16)
        = wholePart (c :: chars) := by
      have hcode : c.toNat / 16 * 16 + c.toNat % 16 = c.toNat := by omega
      have hhalf : ¬ (0xd800 ≤ c.toNat ∧ c.toNat ≤ 0xdbff) := by omega
      have hother : ¬ (0xdc00 ≤ c.toNat ∧ c.toNat ≤ 0xdfff) := by omega
      rw [hcode, Partial.pushUnit, if_neg hhalf, if_neg hother, Char.ofNat_toNat]
      rfl
    show scan (.text (wholePart chars))
      ('\\' :: 'u' :: '0' :: '0' :: hexDigit (c.toNat / 16) :: hexDigit (c.toNat % 16) :: rest) = _
    rw [hescaped]
    simp [scan, step, hhigh, hlow, hunit]
  · have hstep : step (.text (wholePart chars)) c = ([], .text ((wholePart chars).push c)) := by
      simp [step, h₁, h₂, h₈]
    rw [List.singleton_append, scan, hstep]
    rfl

/-- The characters of a string are taken in up to its closing quote. -/
theorem scan_stringBody (s chars rest : List Char) :
    scan (.text (wholePart chars)) (s.flatMap escapeChar ++ '"' :: rest)
      = .string (some (String.ofList (chars.reverse ++ s))) :: scan .between rest := by
  induction s generalizing chars with
  | nil => simp [scan, step, wholePart, Partial.value?]
  | cons c s ih =>
    rw [List.flatMap_cons, List.append_assoc, scan_escapeChar, ih]
    simp

/-- A printed string is scanned as the string. -/
theorem scan_string (s : String) (rest : List Char) :
    scan .between (stringChars s ++ rest) = .string (some s) :: scan .between rest := by
  have hopen : scan .between (stringChars s ++ rest)
      = scan (.text (wholePart [])) (s.toList.flatMap escapeChar ++ '"' :: rest) := by
    simp [stringChars, scan, step, begin, isSpace, wholePart, Partial.empty]
  rw [hopen, scan_stringBody, List.reverse_nil, List.nil_append, String.ofList_toList]

/-! ## Values -/

mutual

/-- A value printed over several lines is scanned as its tokens. -/
theorem scan_prettyChars (level : Nat) (v : Json) (h : v.Proper Number.Legible) {rest : List Char}
    (hrest : Delimited rest) :
    scan .between (v.prettyChars level ++ rest) = valueTokens v ++ scan .between rest := by
  match v, h with
  | .null, _ => rfl
  | .bool true, _ => rfl
  | .bool false, _ => rfl
  | .number n, h => exact scan_number h hrest
  | .string s, _ => exact scan_string s rest
  | .array [], _ => rfl
  | .object [], _ => rfl
  | .array (v :: items), h =>
    have hopen : ∀ tail, scan .between ('[' :: tail) = .openArray :: scan .between tail :=
      fun _ => rfl
    have hclose : scan .between (']' :: rest) = .closeArray :: scan .between rest := rfl
    simp only [prettyChars, List.cons_append, List.append_assoc, List.nil_append]
    rw [hopen, scan_newline, scan_prettyItems (level + 1) (v :: items) h (delimited_newline ..),
      scan_newline, hclose]
    simp [valueTokens]
  | .object (e :: entries), h =>
    have hopen : ∀ tail, scan .between ('\x7b' :: tail) = .openObject :: scan .between tail :=
      fun _ => rfl
    have hclose : scan .between ('\x7d' :: rest) = .closeObject :: scan .between rest := rfl
    simp only [prettyChars, List.cons_append, List.append_assoc, List.nil_append]
    rw [hopen, scan_newline, scan_prettyEntries (level + 1) (e :: entries) h.2
      (delimited_newline ..), scan_newline, hclose]
    simp [valueTokens]

/-- Printed items are scanned as their tokens. -/
theorem scan_prettyItems (level : Nat) (items : List Json)
    (h : ProperItems Number.Legible items) {rest : List Char} (hrest : Delimited rest) :
    scan .between (prettyItems level items ++ rest) = itemTokens items ++ scan .between rest := by
  match items, h with
  | [], _ => rfl
  | [v], h => exact scan_prettyChars level v h.1 hrest
  | v :: w :: more, h =>
    have hcomma : ∀ tail, scan .between (',' :: tail) = .comma :: scan .between tail :=
      fun _ => rfl
    simp only [prettyItems, List.cons_append, List.append_assoc]
    rw [scan_prettyChars level v h.1 (.comma _), hcomma, scan_newline,
      scan_prettyItems level (w :: more) h.2 hrest]
    simp [itemTokens]

/-- Printed entries are scanned as their tokens. -/
theorem scan_prettyEntries (level : Nat) (entries : List (String × Json))
    (h : ProperEntries Number.Legible entries) {rest : List Char} (hrest : Delimited rest) :
    scan .between (prettyEntries level entries ++ rest)
      = entryTokens entries ++ scan .between rest := by
  have hcolon : ∀ tail, scan .between (':' :: ' ' :: tail) = .colon :: scan .between tail :=
    fun _ => rfl
  match entries, h with
  | [], _ => rfl
  | [(k, v)], h =>
    simp only [prettyEntries, List.cons_append, List.append_assoc]
    rw [scan_string, hcolon, scan_prettyChars level v h.1 hrest]
    simp [entryTokens]
  | (k, v) :: e :: more, h =>
    have hcomma : ∀ tail, scan .between (',' :: tail) = .comma :: scan .between tail :=
      fun _ => rfl
    simp only [prettyEntries, List.cons_append, List.append_assoc]
    rw [scan_string, hcolon, scan_prettyChars level v h.1 (.comma _), hcomma, scan_newline,
      scan_prettyEntries level (e :: more) h.2 hrest]
    simp [entryTokens]

end

/-- The tokens of a value printed over several lines. -/
theorem tokens_pretty {v : Json} (h : v.Proper Number.Legible) : tokens v.pretty = valueTokens v := by
  have hscan := scan_prettyChars 0 v h .nil
  rw [List.append_nil] at hscan
  rw [tokens, pretty, String.toList_ofList, hscan]
  simp [scan, atEnd]

end PropertyGraph.Json
