/-
  PropertyGraph.Proofs.PropertyPath.Reading

  Which texts are read as property paths.  Each reader takes the texts that its part of the
  grammar derives and no others: numbers, brackets, single steps, steps in sequence, and the
  three forms of a path.  A reader of one step also says what it leaves, so the statement
  about sequences is an induction over what is left.
-/
import PropertyGraph.Proofs.PropertyPath.Grammar

namespace PropertyGraph.PropertyPath

open Text (Stops Trims stops_cons takeWhile_of_stops dropWhile_of_stops trims_iff isBlank)

variable {c : Char} {cs rest : List Char} {step : PathStep} {steps : List PathStep}

/-! ## Numbers -/

theorem foldl_digits (ds : List Char) (acc : Nat) :
    ds.foldl (fun acc d => acc * 10 + (d.toNat - 48)) acc = Nat.ofDigitChars 10 ds acc := by
  induction ds generalizing acc with
  | nil => rfl
  | cons d rest ih =>
    rw [List.foldl_cons, ih, Nat.ofDigitChars_cons, Nat.mul_comm]
    rfl

/-- Digits, of which there is at least one, spell a number that has a place in 64 bits. -/
def Spells (ds : List Char) (n : Nat) : Prop :=
  ds ≠ [] ∧ ds.all Char.isDigit = true ∧ Nat.ofDigitChars 10 ds 0 < 18446744073709551616
    ∧ Nat.ofDigitChars 10 ds 0 = n

theorem ite_digits_eq_some_iff {ds : List Char} {n : Nat} :
    (if ds.isEmpty || !ds.all Char.isDigit then none
      else if ds.foldl (fun acc d => acc * 10 + (d.toNat - 48)) 0 < 18446744073709551616
        then some (ds.foldl (fun acc d => acc * 10 + (d.toNat - 48)) 0) else none) = some n
      ↔ Spells ds n := by
  rw [foldl_digits, Spells]
  by_cases hempty : ds = []
  · simp [hempty]
  · cases hall : ds.all Char.isDigit <;> simp [hempty]

theorem number?_plus_iff {ds : List Char} {n : Nat} :
    number? ('+' :: ds) = some n ↔ Spells ds n :=
  ite_digits_eq_some_iff

theorem number?_iff (h : ∀ ds, cs ≠ '+' :: ds) {n : Nat} :
    number? cs = some n ↔ Spells cs n := by
  rw [number?.eq_2 cs fun ds hcs => h ds hcs]
  exact ite_digits_eq_some_iff

/-- The numbers that are read are those that a numeral spells. -/
theorem number?_eq_some_iff {n : Nat} :
    number? cs = some n ↔ ∃ m : Numeral, m.chars = cs ∧ m.value = n := by
  constructor
  · intro h
    by_cases hplus : ∃ ds, cs = '+' :: ds
    · obtain ⟨ds, rfl⟩ := hplus
      obtain ⟨hne, hdigits, hsmall, hvalue⟩ := number?_plus_iff.1 h
      exact ⟨⟨true, ds, hne, List.all_eq_true.1 hdigits, hsmall⟩, rfl, hvalue⟩
    · obtain ⟨hne, hdigits, hsmall, hvalue⟩ := (number?_iff (not_exists.1 hplus)).1 h
      exact ⟨⟨false, cs, hne, List.all_eq_true.1 hdigits, hsmall⟩, rfl, hvalue⟩
  · rintro ⟨⟨plus, digits, hne, hdigits, hsmall⟩, rfl, rfl⟩
    cases plus with
    | true => exact number?_plus_iff.2 ⟨hne, List.all_eq_true.2 hdigits, hsmall, rfl⟩
    | false =>
      refine (number?_iff fun ds hds => ?_).2 ⟨hne, List.all_eq_true.2 hdigits, hsmall, rfl⟩
      -- a digit is not a plus sign
      obtain rfl : digits = '+' :: ds := hds
      exact absurd (hdigits '+' (List.mem_cons_self ..)) (by decide)

/-- White space around a numeral is trimmed away. -/
theorem trim_place (before : Blanks) (n : Numeral) (after : Blanks) :
    Text.trim (before.chars ++ (n.chars ++ after.chars)) = n.chars := by
  have hedge : ∀ cs : List Char, (∀ c ∈ cs, c ∈ n.chars) → Stops isBlank cs := by
    intro cs hsub c hc
    exact isBlank_of_isNumeralChar (n.isNumeralChar c (hsub c (List.mem_of_mem_head? hc)))
  refine trims_iff.1 ⟨⟨before.chars, after.chars, by simp, before.blank, after.blank⟩,
    hedge _ fun c hc => hc, hedge _ fun c hc => List.mem_reverse.1 hc⟩

/-! ## Brackets -/

theorem isQuote_iff {q : Char} : isQuote q = true ↔ ∃ quote : Quote, quote.char = q := by
  constructor
  · intro h
    simp only [isQuote, Bool.or_eq_true, beq_iff_eq] at h
    rcases h with rfl | rfl
    · exact ⟨.single, rfl⟩
    · exact ⟨.double, rfl⟩
  · rintro ⟨quote, rfl⟩
    cases quote <;> rfl

/-- A number in brackets is read. -/
theorem bracket_place (before : Blanks) (n : Numeral) (after : Blanks) (rest : List Char) :
    bracket (before.chars ++ (n.chars ++ (after.chars ++ ']' :: rest)))
      = .ok (.index n.value, rest) := by
  -- No character up to the closing bracket is that bracket, so all that is between is taken at
  -- once.
  have hinner : ∀ c ∈ before.chars ++ (n.chars ++ after.chars), (c != ']') = true := by
    intro c hc
    rw [bne_iff_ne]
    rintro rfl
    simp only [List.mem_append] at hc
    rcases hc with hc | hc | hc
    · exact absurd (before.blank _ hc) (by decide)
    · exact absurd (n.isNumeralChar _ hc) (by decide)
    · exact absurd (after.blank _ hc) (by decide)
  have hsplit : before.chars ++ (n.chars ++ (after.chars ++ ']' :: rest))
      = (before.chars ++ (n.chars ++ after.chars)) ++ ']' :: rest := by simp
  have hnumber : number? (Text.trim (before.chars ++ (n.chars ++ after.chars)))
      = some n.value := by
    rw [trim_place]
    exact number?_eq_some_iff.2 ⟨n, rfl, rfl⟩
  have hstops : Stops (· != ']') (']' :: rest) := stops_cons (by decide) rest
  rcases hcs : before.chars ++ (n.chars ++ (after.chars ++ ']' :: rest)) with _ | ⟨q, body⟩
  · simp at hcs
  -- It does not begin with a quote either, so it is read as a number and not as a name.
  have hquote : isQuote q = false := by
    rw [← Bool.not_eq_true, isQuote_iff]
    rintro ⟨quote, rfl⟩
    exact quote_ne_head quote before n _ _ hcs
  rw [bracket]
  simp only [hquote, Bool.false_eq_true, if_false]
  rw [← hcs, hsplit, dropWhile_of_stops hinner hstops, takeWhile_of_stops hinner hstops]
  simp only [hnumber]

/-- A name in quotes in brackets is read. -/
theorem bracket_quoted (name : QuotedName) (rest : List Char) :
    bracket (name.quote.char :: (name.body ++ name.quote.char :: ']' :: rest))
      = .ok (.field (String.ofList name.body), rest) := by
  have hquote : isQuote name.quote.char = true := isQuote_iff.2 ⟨_, rfl⟩
  have hstops : Stops (· != name.quote.char) (name.quote.char :: ']' :: rest) :=
    stops_cons (by simp) _
  rw [bracket]
  simp only [hquote, if_true, dropWhile_of_stops name.ne_quote hstops,
    takeWhile_of_stops name.ne_quote hstops]

/-- What is read in brackets is a number or a name in quotes. -/
theorem exists_of_bracket (h : bracket cs = .ok (step, rest)) :
    ∃ s : Segment, s.chars ++ rest = '[' :: cs ∧ s.step = step := by
  rw [bracket.eq_def] at h
  split at h
  · cases h
  next q body =>
  split at h
  · next hquote =>
    obtain ⟨quote, rfl⟩ := isQuote_iff.1 hquote
    split at h
    · cases h
    · next closing tail hdrop =>
      obtain ⟨rfl, rfl⟩ := Prod.mk.inj (Except.ok.inj h)
      -- the search for the closing quote ends at one
      have hclosing : closing = quote.char := by
        have hstop := Text.stops_dropWhile (· != quote.char) body
        rw [hdrop] at hstop
        simpa using hstop closing rfl
      have hbody := List.takeWhile_append_dropWhile (p := (· != quote.char)) (l := body)
      rw [hdrop, hclosing] at hbody
      refine ⟨.quoted ⟨quote, body.takeWhile (· != quote.char), fun hmem => ?_⟩, ?_, rfl⟩
      · have hne := List.mem_takeWhile_imp hmem
        simp at hne
      · simpa [Segment.chars] using hbody
    · cases h
  · split at h
    · cases h
    next closing tail hdrop =>
    split at h
    · next n hnumber =>
      obtain ⟨rfl, rfl⟩ := Prod.mk.inj (Except.ok.inj h)
      have hclosing : closing = ']' := by
        have hstop := Text.stops_dropWhile (· != ']') (q :: body)
        rw [hdrop] at hstop
        simpa using hstop closing rfl
      have hwhole := List.takeWhile_append_dropWhile (p := (· != ']')) (l := q :: body)
      rw [hdrop, hclosing] at hwhole
      obtain ⟨m, hm, rfl⟩ := number?_eq_some_iff.1 hnumber
      obtain ⟨before, after, hinner, hbefore, hafter⟩ :=
        (Text.trims_trim ((q :: body).takeWhile (· != ']'))).surrounded
      refine ⟨.place ⟨before, hbefore⟩ m ⟨after, hafter⟩, ?_, rfl⟩
      rw [← hwhole, hinner, ← hm]
      simp [Segment.chars]
    · cases h

/-! ## Steps -/

/-- A segment is read, as far as no more of a name comes after it. -/
theorem readStep_segment (s : Segment) (hrest : Stops isNameChar rest)
    (h : s.chars ++ rest = c :: cs) : readStep c cs = .ok (s.step, rest) := by
  cases s with
  | field name =>
    rw [Segment.chars, List.cons_append] at h
    obtain ⟨rfl, rfl⟩ := List.cons.inj h
    rw [readStep, if_pos rfl]
    simp only [takeWhile_of_stops name.isNameChar hrest, dropWhile_of_stops name.isNameChar hrest,
      List.isEmpty_iff, name.nonempty, if_false]
    rfl
  | place before n after =>
    simp only [Segment.chars, List.cons_append, List.append_assoc, List.nil_append] at h
    obtain ⟨rfl, rfl⟩ := List.cons.inj h
    rw [readStep, if_neg (by decide), if_pos rfl]
    exact bracket_place before n after rest
  | quoted name =>
    simp only [Segment.chars, List.cons_append, List.append_assoc, List.nil_append] at h
    obtain ⟨rfl, rfl⟩ := List.cons.inj h
    rw [readStep, if_neg (by decide), if_pos rfl]
    exact bracket_quoted name rest

/-- What is read as a step is a segment. -/
theorem exists_of_readStep (h : readStep c cs = .ok (step, rest)) :
    ∃ s : Segment, s.chars ++ rest = c :: cs ∧ s.step = step := by
  rw [readStep] at h
  split at h
  · next hpoint =>
    simp only at h
    split at h
    · cases h
    next hname =>
    obtain ⟨rfl, rfl⟩ := Prod.mk.inj (Except.ok.inj h)
    refine ⟨.field ⟨cs.takeWhile isNameChar, by simpa using hname, fun d hd => ?_⟩, ?_, rfl⟩
    · exact isNameChar_iff.1 (List.mem_takeWhile_imp hd)
    · rw [hpoint]
      simp [Segment.chars]
  · split at h
    · next hbracket =>
      rw [hbracket]
      exact exists_of_bracket h
    · cases h

/-- The texts that are read as steps are those of segments. -/
theorem readSteps_eq_ok_iff : readSteps cs = .ok steps
    ↔ ∃ segments : List Segment, segments.flatMap Segment.chars = cs
      ∧ segments.map Segment.step = steps := by
  constructor
  · intro h
    -- the induction is on what the steps leave of the text
    fun_induction readSteps cs generalizing steps with
    | case1 => exact ⟨[], rfl, Except.ok.inj h⟩
    | case2 => cases h
    | case3 => cases h
    | case4 c cs s rest hstep more hmore ih =>
      obtain ⟨segment, hchars, rfl⟩ := exists_of_readStep hstep
      obtain ⟨segments, rfl, rfl⟩ := ih hmore
      exact ⟨segment :: segments, hchars, Except.ok.inj h⟩
  · rintro ⟨segments, rfl, rfl⟩
    induction segments with
    | nil =>
      rw [List.flatMap_nil, readSteps]
      rfl
    | cons s rest ih =>
      obtain ⟨c, more, hs, -⟩ := s.chars_head
      have hhead : s.chars ++ rest.flatMap Segment.chars
          = c :: (more ++ rest.flatMap Segment.chars) := by rw [hs, List.cons_append]
      have hstep := readStep_segment s (stops_segments rest) hhead
      rw [List.flatMap_cons, hhead, readSteps]
      split
      · next hfails => rw [hstep] at hfails; cases hfails
      · next hreads =>
        rw [hstep] at hreads
        obtain ⟨rfl, rfl⟩ := Prod.mk.inj (Except.ok.inj hreads)
        rw [ih]
        rfl

/-! ## Paths -/

/-- Steps make a path if there are any. -/
theorem steps_eq_ok_iff {path : PropertyPath} :
    (match readSteps cs with
      | .error fault => .error fault
      | .ok [] => .error .noProperty
      | .ok steps => .ok ⟨steps⟩ : Except PathFault PropertyPath) = .ok path
      ↔ ∃ (first : Segment) (others : List Segment),
        (first :: others).flatMap Segment.chars = cs
          ∧ (first :: others).map Segment.step = path.steps := by
  constructor
  · intro h
    split at h
    · cases h
    · cases h
    next steps hne hsteps =>
    obtain ⟨segments, rfl, rfl⟩ := readSteps_eq_ok_iff.1 hsteps
    cases segments with
    | nil => exact absurd rfl hne
    | cons first others => exact ⟨first, others, rfl, congrArg PropertyPath.steps (Except.ok.inj h)⟩
  · rintro ⟨first, others, hchars, hsteps⟩
    rw [readSteps_eq_ok_iff.2 ⟨first :: others, hchars, hsteps⟩, ← hsteps]
    obtain ⟨steps⟩ := path
    exact congrArg (fun steps => Except.ok (PropertyPath.mk steps)) hsteps

/-- A text that begins with none of the signs is derived from its first name and what follows. -/
theorem exists_bare {segments : List Segment} (hne : cs ≠ []) (hroot : ∀ rest, cs ≠ '$' :: rest)
    (hpoint : ∀ rest, cs ≠ '.' :: rest) (hbracket : ∀ rest, cs ≠ '[' :: rest)
    (h : segments.flatMap Segment.chars = cs.dropWhile isNameChar) :
    ∃ (name : Name) (unrooted : name.chars.head? ≠ some '$'),
      name.chars = cs.takeWhile isNameChar
        ∧ (Derivation.bare name unrooted segments).chars = cs := by
  have hwhole := List.takeWhile_append_dropWhile (p := isNameChar) (l := cs)
  rw [← h] at hwhole
  have hname : cs.takeWhile isNameChar ≠ [] := by
    intro hnil
    rw [hnil, List.nil_append] at hwhole
    cases segments with
    | nil => exact hne hwhole.symm
    | cons s rest =>
      obtain ⟨c, more, hs, hc⟩ := s.chars_head
      rw [List.flatMap_cons, hs] at hwhole
      rcases hc with rfl | rfl
      · exact hpoint _ hwhole.symm
      · exact hbracket _ hwhole.symm
  refine ⟨⟨cs.takeWhile isNameChar, hname, fun c hc => ?_⟩, fun hhead => ?_, rfl, hwhole⟩
  · exact isNameChar_iff.1 (List.mem_takeWhile_imp hc)
  · obtain ⟨more, hmore⟩ := List.head?_eq_some_iff.1 hhead
    rw [show cs.takeWhile isNameChar = '$' :: more from hmore] at hwhole
    exact hroot _ hwhole.symm

/-- Every derivation is read as the steps that it spells. -/
theorem ofChars_chars (d : Derivation) : ofChars d.chars = .ok ⟨d.steps⟩ := by
  cases d with
  | rooted first rest => exact steps_eq_ok_iff.2 ⟨first, rest, rfl, rfl⟩
  | plain first rest =>
    obtain ⟨c, more, hs, hc⟩ := first.chars_head
    have hhead : (first :: rest).flatMap Segment.chars
        = c :: (more ++ rest.flatMap Segment.chars) := by
      rw [List.flatMap_cons, hs, List.cons_append]
    rw [Derivation.chars, hhead]
    rcases hc with rfl | rfl
    · rw [ofChars.eq_3]
      exact steps_eq_ok_iff.2 ⟨first, rest, hhead, rfl⟩
    · rw [ofChars.eq_4]
      exact steps_eq_ok_iff.2 ⟨first, rest, hhead, rfl⟩
  | bare name unrooted rest =>
    obtain ⟨c, more, hd, hroot, hc⟩ := (Derivation.bare name unrooted rest).chars_head
    obtain ⟨hpoint, hbracket, -⟩ := isNameChar_iff.1 hc
    rw [ofChars.eq_5 _ ?_ ?_ ?_ ?_]
    · simp only [Derivation.chars, takeWhile_of_stops name.isNameChar (stops_segments rest),
        dropWhile_of_stops name.isNameChar (stops_segments rest),
        readSteps_eq_ok_iff.2 ⟨rest, rfl, rfl⟩]
      rfl
    all_goals
      rw [hd]
      simp [hroot, hpoint, hbracket]

/-- The texts that are read as a path, white space at their ends apart, are those that the
    grammar derives. -/
theorem ofChars_eq_ok_iff : ofChars cs = .ok ⟨steps⟩
    ↔ ∃ d : Derivation, d.chars = cs ∧ d.steps = steps := by
  constructor
  · intro h
    rw [ofChars.eq_def] at h
    simp only at h
    split at h
    · obtain ⟨first, others, rfl, hsteps⟩ := steps_eq_ok_iff.1 h
      exact ⟨.rooted first others, rfl, hsteps⟩
    -- nothing, a point and a bracket are three cases of the reader and one of the grammar
    iterate 3
      · obtain ⟨first, others, hchars, hsteps⟩ := steps_eq_ok_iff.1 h
        exact ⟨.plain first others, hchars, hsteps⟩
    · next hroot hne hpoint hbracket =>
      split at h
      · cases h
      next more hmore =>
      obtain ⟨segments, hsegments, rfl⟩ := readSteps_eq_ok_iff.1 hmore
      obtain ⟨name, unrooted, hname, hchars⟩ :=
        exists_bare hne (fun rest => hroot rest) (fun rest => hpoint rest)
          (fun rest => hbracket rest) hsegments
      refine ⟨.bare name unrooted segments, hchars, ?_⟩
      rw [Derivation.steps, hname]
      exact congrArg PropertyPath.steps (Except.ok.inj h)
  · rintro ⟨d, rfl, rfl⟩
    exact ofChars_chars d

/-- A text is read as a path of some steps exactly when what is left of it without the white space
    at its ends is derived with these steps; nothing has two derivations; and a text without a
    derivation is refused as a bad path. -/
theorem read_iff_derived (text : String) :
    (∀ steps, read text = .ok ⟨steps⟩
      ↔ ∃ d : Derivation, Trims text.toList d.chars ∧ d.steps = steps)
    ∧ (∀ d d' : Derivation, Trims text.toList d.chars → Trims text.toList d'.chars → d = d')
    ∧ ((∃ fault, read text = .error (.path text fault))
      ↔ ¬ ∃ d : Derivation, Trims text.toList d.chars) := by
  have hread : ∀ steps, read text = .ok ⟨steps⟩
      ↔ ∃ d : Derivation, Trims text.toList d.chars ∧ d.steps = steps := by
    intro steps
    -- the derivations are those of the trimmed text
    have hderived : (∃ d : Derivation, Trims text.toList d.chars ∧ d.steps = steps)
        ↔ ofChars (Text.trim text.toList) = .ok ⟨steps⟩ := by
      rw [ofChars_eq_ok_iff]
      simp only [trims_iff, eq_comm]
    rw [hderived, read]
    cases ofChars (Text.trim text.toList) <;> simp
  refine ⟨hread, ?_, ?_⟩
  · intro d d' hd hd'
    exact Derivation.chars_inj ((trims_iff.1 hd).symm.trans (trims_iff.1 hd'))
  · constructor
    · rintro ⟨fault, hfault⟩ ⟨d, hd⟩
      have hok := (hread d.steps).2 ⟨d, hd, rfl⟩
      rw [hfault] at hok
      cases hok
    · intro hnone
      rw [read]
      cases hchars : ofChars (Text.trim text.toList) with
      | error fault => exact ⟨fault, rfl⟩
      | ok path =>
        obtain ⟨d, hd, -⟩ := ofChars_eq_ok_iff.1 hchars
        exact absurd ⟨d, trims_iff.2 hd.symm⟩ hnone

/-- A bare name, a number with a sign and white space around it, and a name in quotes with a point
    and a bracket in it. -/
theorem derived_lines : read "\t lines of[ +07 ]['a.b]'] " =
      .ok ⟨[.field "lines of", .index 7, .field "a.b]"]⟩
    ∧ ∃ d : Derivation, Trims "\t lines of[ +07 ]['a.b]'] ".toList d.chars
      ∧ d.steps = [.field "lines of", .index 7, .field "a.b]"] :=
  have hread : read "\t lines of[ +07 ]['a.b]'] " =
      .ok ⟨[.field "lines of", .index 7, .field "a.b]"]⟩ := by cbv
  ⟨hread, ((read_iff_derived _).1 _).1 hread⟩

end PropertyGraph.PropertyPath
