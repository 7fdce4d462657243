/-
  PropertyGraph.Proofs.PropertyPath.Grammar

  The grammar of property paths.  A derivation is a path as it stands in a text, down to its
  white space, its signs and its quotes; it is well-formed by construction, and what it says
  is the list of steps that it spells.  No text has two derivations: each part ends where the
  first character comes that cannot belong to it, and `append_inj_of_stops` says that this
  place is the same in both.
-/
import PropertyGraph.PropertyPath
import Mathlib.Data.List.TakeWhile

namespace PropertyGraph

/-! ## Where a run of characters ends -/

namespace Text

variable {p : Char → Bool} {body body' rest rest' : List Char}

/-- A text does not begin with a character of a class. -/
def Stops (p : Char → Bool) (rest : List Char) : Prop := ∀ c, rest.head? = some c → p c = false

theorem stops_nil : Stops p [] := by
  intro c hc
  cases hc

theorem stops_cons {c : Char} (h : p c = false) (rest : List Char) : Stops p (c :: rest) := by
  intro d hd
  rw [← Option.some.inj hd]
  exact h

/-- Behind characters of a class the run of that class goes on only as long as the rest lets it. -/
theorem takeWhile_of_stops (hbody : ∀ c ∈ body, p c = true) (hrest : Stops p rest) :
    (body ++ rest).takeWhile p = body := by
  rw [List.takeWhile_append_of_pos hbody]
  cases rest with
  | nil => simp
  | cons c tail => simp [hrest c rfl]

theorem dropWhile_of_stops (hbody : ∀ c ∈ body, p c = true) (hrest : Stops p rest) :
    (body ++ rest).dropWhile p = rest := by
  rw [List.dropWhile_append_of_pos hbody]
  cases rest with
  | nil => rfl
  | cons c tail => simp [hrest c rfl]

theorem stops_dropWhile (p : Char → Bool) (cs : List Char) : Stops p (cs.dropWhile p) := by
  induction cs with
  | nil => exact stops_nil
  | cons c rest ih =>
    rw [List.dropWhile_cons]
    split
    · exact ih
    · next hc => exact stops_cons (by simpa using hc) rest

/-- A run of a class and what comes after it are determined by the whole. -/
theorem append_inj_of_stops (hbody : ∀ c ∈ body, p c = true) (hrest : Stops p rest)
    (hbody' : ∀ c ∈ body', p c = true) (hrest' : Stops p rest')
    (h : body ++ rest = body' ++ rest') : body = body' ∧ rest = rest' := by
  constructor
  · rw [← takeWhile_of_stops hbody hrest, h, takeWhile_of_stops hbody' hrest']
  · rw [← dropWhile_of_stops hbody hrest, h, dropWhile_of_stops hbody' hrest']

/-! ## White space at the ends -/

/-- A text is `core` with white space before and after it, and `core` has none at its ends. -/
structure Trims (cs core : List Char) : Prop where
  surrounded : ∃ before after, cs = before ++ core ++ after
    ∧ (∀ c ∈ before, isBlank c = true) ∧ ∀ c ∈ after, isBlank c = true
  first : Stops isBlank core
  last : Stops isBlank core.reverse

theorem trims_trim (cs : List Char) : Trims cs (trim cs) := by
  have hmiddle : cs.dropWhile isBlank = trim cs
      ++ ((cs.dropWhile isBlank).reverse.takeWhile isBlank).reverse := by
    rw [trim, trimEnd, ← List.reverse_append, List.takeWhile_append_dropWhile,
      List.reverse_reverse]
  refine ⟨⟨cs.takeWhile isBlank, ((cs.dropWhile isBlank).reverse.takeWhile isBlank).reverse,
    ?_, ?_, ?_⟩, ?_, ?_⟩
  · rw [List.append_assoc, ← hmiddle, List.takeWhile_append_dropWhile]
  · exact fun c hc => List.mem_takeWhile_imp hc
  · intro c hc
    exact List.mem_takeWhile_imp (List.mem_reverse.1 hc)
  · -- the first character that is left is the first behind the white space
    intro c hc
    refine stops_dropWhile isBlank cs c ?_
    rw [hmiddle, List.head?_append, hc]
    rfl
  · rw [trim, trimEnd, List.reverse_reverse]
    exact stops_dropWhile _ _

/-- Trimming gives the only text that is left without white space at its ends. -/
theorem trims_iff {cs core : List Char} : Trims cs core ↔ trim cs = core := by
  constructor
  · rintro ⟨⟨before, after, rfl, hbefore, hafter⟩, hfirst, hlast⟩
    have hafter' : ∀ c ∈ after.reverse, isBlank c = true := fun c hc =>
      hafter c (List.mem_reverse.1 hc)
    rw [trim, List.append_assoc, List.dropWhile_append_of_pos hbefore]
    cases core with
    | nil =>
      rw [List.nil_append, List.dropWhile_eq_nil_iff.2 hafter]
      rfl
    | cons c rest =>
      rw [List.cons_append, List.dropWhile_cons, hfirst c rfl, if_neg Bool.false_ne_true,
        ← List.cons_append, trimEnd, List.reverse_append, dropWhile_of_stops hafter' hlast,
        List.reverse_reverse]
  · rintro rfl
    exact trims_trim cs

end Text

namespace PropertyPath

open Text (Stops stops_cons stops_nil append_inj_of_stops isBlank)

/-! ## Parts of a path -/

/-- A name that needs no quotes. -/
@[ext] structure Name where
  chars : List Char
  nonempty : chars ≠ []
  plain : ∀ c ∈ chars, c ≠ '.' ∧ c ≠ '[' ∧ c ≠ ']'

/-- White space around a number. -/
@[ext] structure Blanks where
  chars : List Char
  blank : ∀ c ∈ chars, isBlank c = true

/-- A number of at most 64 bits in decimal digits, a plus sign before them being allowed. -/
@[ext] structure Numeral where
  plus : Bool
  digits : List Char
  nonempty : digits ≠ []
  decimal : ∀ d ∈ digits, d.isDigit = true
  small : Nat.ofDigitChars 10 digits 0 < 18446744073709551616

/-- The quotes that may stand around a name. -/
inductive Quote where
  | single
  | double
deriving DecidableEq, Repr

/-- The sign of a quote. -/
def Quote.char : Quote → Char
  | .single => '\x27'
  | .double => '"'

/-- A name in quotes, any text without the quote that closes it. -/
@[ext] structure QuotedName where
  quote : Quote
  body : List Char
  free : quote.char ∉ body

/-- A number as it is written. -/
def Numeral.chars (n : Numeral) : List Char := if n.plus then '+' :: n.digits else n.digits

/-- The value of a number. -/
def Numeral.value (n : Numeral) : Nat := Nat.ofDigitChars 10 n.digits 0

/-- One step of a path as it is written. -/
inductive Segment where
  /-- a name behind a point -/
  | field (name : Name)
  /-- a number in brackets -/
  | place (before : Blanks) (numeral : Numeral) (after : Blanks)
  /-- a name in quotes in brackets -/
  | quoted (name : QuotedName)

/-- The text of a segment. -/
def Segment.chars : Segment → List Char
  | .field name => '.' :: name.chars
  | .place before numeral after =>
    '[' :: (before.chars ++ (numeral.chars ++ (after.chars ++ [']'])))
  | .quoted name => '[' :: name.quote.char :: (name.body ++ [name.quote.char, ']'])

/-- The step that a segment spells. -/
def Segment.step : Segment → PathStep
  | .field name => .field (String.ofList name.chars)
  | .place _ numeral _ => .index numeral.value
  | .quoted name => .field (String.ofList name.body)

/-- A path as it is written, without white space around it. -/
inductive Derivation where
  /-- segments behind the sign for the bag -/
  | rooted (first : Segment) (rest : List Segment)
  /-- segments without that sign -/
  | plain (first : Segment) (rest : List Segment)
  /-- a first name that stands bare; with `$` in front it would be taken for that sign -/
  | bare (name : Name) (unrooted : name.chars.head? ≠ some '$') (rest : List Segment)

/-- The text of a derivation. -/
def Derivation.chars : Derivation → List Char
  | .rooted first rest => '$' :: (first :: rest).flatMap Segment.chars
  | .plain first rest => (first :: rest).flatMap Segment.chars
  | .bare name _ rest => name.chars ++ rest.flatMap Segment.chars

/-- The steps that a derivation spells. -/
def Derivation.steps : Derivation → List PathStep
  | .rooted first rest => (first :: rest).map Segment.step
  | .plain first rest => (first :: rest).map Segment.step
  | .bare name _ rest => .field (String.ofList name.chars) :: rest.map Segment.step

/-! ## Classes of characters -/

theorem isNameChar_iff {c : Char} : isNameChar c = true ↔ c ≠ '.' ∧ c ≠ '[' ∧ c ≠ ']' := by
  simp [isNameChar, and_assoc]

theorem Name.isNameChar (name : Name) : ∀ c ∈ name.chars, PropertyPath.isNameChar c = true :=
  fun c hc => isNameChar_iff.2 (name.plain c hc)

theorem isBlank_of_isDigit {c : Char} (h : c.isDigit = true) : isBlank c = false := by
  have hbounds : 48 ≤ c.toNat ∧ c.toNat ≤ 57 := by
    simpa [Char.isDigit, UInt32.le_iff_toNat_le] using h
  simp only [isBlank, Bool.or_eq_false_iff, Bool.and_eq_false_iff, decide_eq_false_iff_not,
    beq_eq_false_iff_ne]
  omega

/-- Whether a character can be part of a number. -/
def isNumeralChar (c : Char) : Bool := c == '+' || c.isDigit

theorem isBlank_of_isNumeralChar {c : Char} (h : isNumeralChar c = true) : isBlank c = false := by
  simp only [isNumeralChar, Bool.or_eq_true, beq_iff_eq] at h
  rcases h with rfl | h
  · decide
  · exact isBlank_of_isDigit h

theorem isNumeralChar_of_isBlank {c : Char} (h : isBlank c = true) : isNumeralChar c = false := by
  by_contra hc
  rw [isBlank_of_isNumeralChar (by simpa using hc)] at h
  cases h

theorem Numeral.isNumeralChar (n : Numeral) :
    ∀ c ∈ n.chars, PropertyPath.isNumeralChar c = true := by
  have hdigits : ∀ c ∈ n.digits, PropertyPath.isNumeralChar c = true := by
    intro c hc
    simp [PropertyPath.isNumeralChar, n.decimal c hc]
  intro c hc
  rw [chars] at hc
  split at hc
  · rcases List.mem_cons.1 hc with rfl | hc
    · rfl
    · exact hdigits c hc
  · exact hdigits c hc

theorem Numeral.chars_ne_nil (n : Numeral) : n.chars ≠ [] := by
  rw [chars]
  split
  · simp
  · exact n.nonempty

/-! ## One derivation for a text -/

theorem Numeral.chars_inj {m n : Numeral} (h : m.chars = n.chars) : m = n := by
  -- no digit is a plus sign
  have hplus : ∀ n : Numeral, n.plus = true ↔ n.chars.head? = some '+' := by
    intro n
    rw [chars]
    cases hsign : n.plus with
    | true => simp
    | false =>
      simp only [Bool.false_eq_true, if_false, false_iff]
      intro hhead
      have hdigit := n.decimal '+' (List.mem_of_mem_head? hhead)
      exact absurd hdigit (by decide)
  have hsign : m.plus = n.plus := by
    rw [Bool.eq_iff_iff, hplus, hplus, h]
  refine Numeral.ext hsign ?_
  rw [chars, chars, hsign] at h
  cases hn : n.plus with
  | true => simpa [hn] using h
  | false => simpa [hn] using h

theorem Quote.char_inj {q r : Quote} (h : q.char = r.char) : q = r := by
  cases q <;> cases r <;> first | rfl | exact absurd h (by decide)

/-- What stands in brackets begins with no quote unless it is a name in quotes. -/
theorem quote_ne_head (q : Quote) (before : Blanks) (n : Numeral) (rest rest' : List Char) :
    before.chars ++ (n.chars ++ rest) ≠ q.char :: rest' := by
  intro h
  have hquote : isBlank q.char = false ∧ isNumeralChar q.char = false := by
    cases q <;> decide
  obtain ⟨hblank, hnumeral⟩ := hquote
  rcases hb : before.chars with _ | ⟨c, more⟩
  · rcases hn : n.chars with _ | ⟨c, more⟩
    · exact n.chars_ne_nil hn
    · rw [hb, hn, List.nil_append, List.cons_append] at h
      have hc := n.isNumeralChar c (by rw [hn]; exact List.mem_cons_self ..)
      rw [(List.cons.inj h).1, hnumeral] at hc
      cases hc
  · rw [hb, List.cons_append] at h
    have hc := before.blank c (by rw [hb]; exact List.mem_cons_self ..)
    rw [(List.cons.inj h).1, hblank] at hc
    cases hc

theorem stops_isBlank_numeral (n : Numeral) (rest : List Char) :
    Stops isBlank (n.chars ++ rest) := by
  rcases hn : n.chars with _ | ⟨c, more⟩
  · exact absurd hn n.chars_ne_nil
  · refine stops_cons (isBlank_of_isNumeralChar (n.isNumeralChar c ?_)) _
    rw [hn]
    exact List.mem_cons_self ..

theorem stops_isNumeralChar_blanks (after : Blanks) (rest : List Char) :
    Stops isNumeralChar (after.chars ++ ']' :: rest) := by
  rcases ha : after.chars with _ | ⟨c, more⟩
  · exact stops_cons (by decide) rest
  · refine stops_cons (isNumeralChar_of_isBlank (after.blank c ?_)) _
    rw [ha]
    exact List.mem_cons_self ..

/-- A number in brackets is read off its text: first the white space, then the number, then the
    white space up to the bracket. -/
theorem place_inj {before before' after after' : Blanks} {n n' : Numeral} {rest rest' : List Char}
    (h : before.chars ++ (n.chars ++ (after.chars ++ ']' :: rest))
      = before'.chars ++ (n'.chars ++ (after'.chars ++ ']' :: rest'))) :
    before = before' ∧ n = n' ∧ after = after' ∧ rest = rest' := by
  obtain ⟨hbefore, h⟩ := append_inj_of_stops before.blank (stops_isBlank_numeral n _)
    before'.blank (stops_isBlank_numeral n' _) h
  obtain ⟨hnumeral, h⟩ := append_inj_of_stops n.isNumeralChar (stops_isNumeralChar_blanks after _)
    n'.isNumeralChar (stops_isNumeralChar_blanks after' _) h
  obtain ⟨hafter, h⟩ := append_inj_of_stops after.blank (stops_cons (by decide) _)
    after'.blank (stops_cons (by decide) _) h
  exact ⟨Blanks.ext hbefore, Numeral.chars_inj hnumeral, Blanks.ext hafter, (List.cons.inj h).2⟩

theorem QuotedName.ne_quote (name : QuotedName) :
    ∀ c ∈ name.body, (c != name.quote.char) = true := by
  intro c hc
  simp only [bne_iff_ne, ne_eq]
  rintro rfl
  exact name.free hc

/-- A name in quotes is read off its text up to the first quote of its kind. -/
theorem quoted_inj {name name' : QuotedName} {rest rest' : List Char}
    (h : name.quote.char :: (name.body ++ name.quote.char :: ']' :: rest)
      = name'.quote.char :: (name'.body ++ name'.quote.char :: ']' :: rest')) :
    name = name' ∧ rest = rest' := by
  obtain ⟨hchar, h⟩ := List.cons.inj h
  have hquote : name.quote = name'.quote := Quote.char_inj hchar
  have hbody' : ∀ c ∈ name'.body, (c != name.quote.char) = true := by
    rw [hquote]
    exact name'.ne_quote
  obtain ⟨hbody, h⟩ := append_inj_of_stops name.ne_quote (stops_cons (by simp) _)
    hbody' (stops_cons (by simp [hchar]) _) h
  exact ⟨QuotedName.ext hquote hbody, (List.cons.inj (List.cons.inj h).2).2⟩

/-- A segment is read off a text, as far as no more of a name comes after it. -/
theorem Segment.chars_append_inj {s s' : Segment} {rest rest' : List Char}
    (hrest : Stops PropertyPath.isNameChar rest) (hrest' : Stops PropertyPath.isNameChar rest')
    (h : s.chars ++ rest = s'.chars ++ rest') : s = s' ∧ rest = rest' := by
  -- a field begins with a point and both other forms with a bracket, where a quote decides
  cases s with
  | field name =>
    cases s' with
    | field name' =>
      obtain ⟨hname, h⟩ := append_inj_of_stops name.isNameChar hrest name'.isNameChar hrest'
        (List.cons.inj h).2
      exact ⟨congrArg Segment.field (Name.ext hname), h⟩
    | place => exact absurd (List.cons.inj h).1 (by decide)
    | quoted => exact absurd (List.cons.inj h).1 (by decide)
  | place before n after =>
    cases s' with
    | field => exact absurd (List.cons.inj h).1 (by decide)
    | place before' n' after' =>
      simp only [chars, List.cons_append, List.append_assoc, List.nil_append] at h
      obtain ⟨rfl, rfl, rfl, hrests⟩ := place_inj (List.cons.inj h).2
      exact ⟨rfl, hrests⟩
    | quoted name' =>
      simp only [chars, List.cons_append, List.append_assoc] at h
      exact absurd (List.cons.inj h).2 (quote_ne_head _ _ _ _ _)
  | quoted name =>
    cases s' with
    | field => exact absurd (List.cons.inj h).1 (by decide)
    | place before' n' after' =>
      simp only [chars, List.cons_append, List.append_assoc] at h
      exact absurd (List.cons.inj h).2.symm (quote_ne_head _ _ _ _ _)
    | quoted name' =>
      simp only [chars, List.cons_append, List.append_assoc, List.nil_append] at h
      obtain ⟨rfl, hrests⟩ := quoted_inj (List.cons.inj h).2
      exact ⟨rfl, hrests⟩

/-- Every segment begins with a point or a bracket. -/
theorem Segment.chars_head (s : Segment) :
    ∃ c rest, s.chars = c :: rest ∧ (c = '.' ∨ c = '[') := by
  cases s with
  | field name => exact ⟨_, _, rfl, .inl rfl⟩
  | place before n after => exact ⟨_, _, rfl, .inr rfl⟩
  | quoted name => exact ⟨_, _, rfl, .inr rfl⟩

/-- So no segment goes on with a name that stands before it. -/
theorem stops_segments (segments : List Segment) :
    Stops PropertyPath.isNameChar (segments.flatMap Segment.chars) := by
  cases segments with
  | nil => exact stops_nil
  | cons s rest =>
    obtain ⟨c, more, hs, hc⟩ := s.chars_head
    rw [List.flatMap_cons, hs, List.cons_append]
    refine stops_cons ?_ _
    rcases hc with rfl | rfl <;> rfl

theorem segments_inj {segments segments' : List Segment}
    (h : segments.flatMap Segment.chars = segments'.flatMap Segment.chars) :
    segments = segments' := by
  induction segments generalizing segments' with
  | nil =>
    cases segments' with
    | nil => rfl
    | cons s rest =>
      obtain ⟨c, more, hs, -⟩ := s.chars_head
      rw [List.flatMap_cons, hs] at h
      cases h
  | cons s rest ih =>
    cases segments' with
    | nil =>
      obtain ⟨c, more, hs, -⟩ := s.chars_head
      rw [List.flatMap_cons, hs] at h
      cases h
    | cons s' rest' =>
      obtain ⟨rfl, hrests⟩ :=
        Segment.chars_append_inj (stops_segments rest) (stops_segments rest') h
      rw [ih hrests]

/-- What the first character of a path is tells which of the three forms the path has. -/
theorem Derivation.chars_head (d : Derivation) : ∃ c rest, d.chars = c :: rest ∧
    match d with
    | .rooted _ _ => c = '$'
    | .plain _ _ => c = '.' ∨ c = '['
    | .bare _ _ _ => c ≠ '$' ∧ PropertyPath.isNameChar c = true := by
  cases d with
  | rooted first rest => exact ⟨_, _, rfl, rfl⟩
  | plain first rest =>
    obtain ⟨c, more, hs, hc⟩ := first.chars_head
    exact ⟨c, more ++ rest.flatMap Segment.chars, by rw [chars, List.flatMap_cons, hs]; rfl, hc⟩
  | bare name unrooted rest =>
    rcases hname : name.chars with _ | ⟨c, more⟩
    · exact absurd hname name.nonempty
    · refine ⟨c, more ++ rest.flatMap Segment.chars, by rw [chars, hname]; rfl, ?_, ?_⟩
      · rintro rfl
        exact unrooted (by rw [hname]; rfl)
      · exact name.isNameChar c (by rw [hname]; exact List.mem_cons_self ..)

/-- A text has one derivation at most. -/
theorem Derivation.chars_inj {d d' : Derivation} (h : d.chars = d'.chars) : d = d' := by
  -- the first character tells the three forms apart
  obtain ⟨c, more, hd, hform⟩ := d.chars_head
  obtain ⟨c', more', hd', hform'⟩ := d'.chars_head
  obtain rfl : c = c' := by
    rw [hd, hd'] at h
    exact (List.cons.inj h).1
  cases d with
  | rooted first rest =>
    obtain rfl := hform
    cases d' with
    | rooted first' rest' =>
      obtain ⟨rfl, rfl⟩ := List.cons.inj (segments_inj (List.cons.inj h).2)
      rfl
    | plain first' rest' => rcases hform' with hc | hc <;> exact absurd hc (by decide)
    | bare name' unrooted' rest' => exact absurd rfl hform'.1
  | plain first rest =>
    cases d' with
    | rooted first' rest' =>
      obtain rfl := hform'
      rcases hform with hc | hc <;> exact absurd hc (by decide)
    | plain first' rest' =>
      obtain ⟨rfl, rfl⟩ := List.cons.inj (segments_inj h)
      rfl
    | bare name' unrooted' rest' =>
      rcases hform with rfl | rfl <;> exact absurd hform'.2 (by decide)
  | bare name unrooted rest =>
    cases d' with
    | rooted first' rest' => exact absurd hform' hform.1
    | plain first' rest' => rcases hform' with rfl | rfl <;> exact absurd hform.2 (by decide)
    | bare name' unrooted' rest' =>
      obtain ⟨hname, hrest⟩ := append_inj_of_stops name.isNameChar (stops_segments rest)
        name'.isNameChar (stops_segments rest') h
      obtain rfl := Name.ext hname
      rw [segments_inj hrest]

end PropertyPath

end PropertyGraph
