/-
  PropertyGraph.Proofs.Json.Bounded

  What any text at all is read as.  A number of the scanner is an integer of 64 bits or a double,
  brackets nest within the limit of the reader, objects collapse their repeated keys, and a time
  is read only within its bounds; so whatever a record is read from, and whoever wrote the text,
  its values are proper and its text can be read again.  A scanner and a reader keep this token by
  token, a record field by field.
-/
import PropertyGraph.Proofs.Json.Nesting

namespace PropertyGraph

/-- An integer of 64 bits, or any double. -/
def Number.Bounded : Number → Prop
  | .integer i => Number.fits i = true
  | .float _ => True

namespace Json

variable {p : Number → Prop}

/-! ## Tokens -/

/-- All numbers that the scanner can come upon have a property. -/
def Numeral.Gives (p : Number → Prop) : Prop :=
  ∀ (numeral : Numeral) (n : Number), numeral.value? = some n → p n

theorem Numeral.gives_bounded : Gives Number.Bounded := by
  intro numeral n h
  dsimp only [value?] at h
  generalize (if numeral.negative then _ else _ : Int) = i at h
  split at h
  · next hfits =>
    obtain rfl := Option.some.inj h
    simp only [Bool.and_eq_true] at hfits
    exact hfits.1.2
  · obtain ⟨x, -, rfl⟩ := Option.map_eq_some_iff.1 h
    trivial

/-- The number of a token has the property. -/
def Token.Bounded (p : Number → Prop) : Token → Prop
  | .number (some n) => p n
  | _ => True

theorem Numeral.Gives.token (hp : Gives p) (numeral : Numeral) :
    (Token.number numeral.value?).Bounded p := by
  cases hvalue : numeral.value? with
  | none => trivial
  | some n => exact hp numeral n hvalue

/-- A word that the scanner is in the middle of stands for a bounded token. -/
def Mode.Bounded (p : Number → Prop) : Mode → Prop
  | .word _ token => token.Bounded p
  | _ => True

theorem forall_mem_nil : ∀ t ∈ ([] : List Token), t.Bounded p := fun _ ht => by cases ht

theorem forall_mem_single {token : Token} (h : token.Bounded p) : ∀ t ∈ [token], t.Bounded p :=
  List.forall_mem_singleton.2 h

/-- Some tokens and what the scanner goes on with are bounded. -/
def BoundedStep (p : Number → Prop) (s : List Token × Mode) : Prop :=
  (∀ t ∈ s.1, t.Bounded p) ∧ s.2.Bounded p

theorem boundedStep_ite {P : Prop} [Decidable P] {s t : List Token × Mode} (hs : BoundedStep p s)
    (ht : BoundedStep p t) : BoundedStep p (if P then s else t) := by
  split
  · exact hs
  · exact ht

theorem bounded_begin (c : Char) : BoundedStep p (begin c) := by
  have hone : ∀ token mode, token.Bounded p → Mode.Bounded p mode →
      BoundedStep p ([token], mode) :=
    fun _ _ htoken hmode => ⟨forall_mem_single htoken, hmode⟩
  have hnone : ∀ mode, Mode.Bounded p mode → BoundedStep p ([], mode) :=
    fun _ hmode => ⟨forall_mem_nil, hmode⟩
  unfold begin
  refine boundedStep_ite (hnone .between trivial) ?_
  iterate 6 refine boundedStep_ite (hone _ .between trivial trivial) ?_
  refine boundedStep_ite (hnone (.text .empty) trivial) ?_
  iterate 3 refine boundedStep_ite (hnone (.word _ _) trivial) ?_
  refine boundedStep_ite (hnone (.number _) trivial) ?_
  split
  · exact hnone (.number _) trivial
  · exact hnone (.number _) trivial
  · exact hone .bad .stuck trivial trivial

/-- A step completes bounded tokens, and goes on with a bounded one. -/
theorem bounded_step (hp : Numeral.Gives p) {mode : Mode} (h : mode.Bounded p) (c : Char) :
    BoundedStep p (step mode c) := by
  have hbegin : BoundedStep p (begin c) := bounded_begin c
  have hbad : BoundedStep p ([.bad], .stuck) := ⟨forall_mem_single trivial, trivial⟩
  cases mode with
  | between => exact hbegin
  | word letters token =>
    have htoken : token.Bounded p := h
    -- the token of a word is known, and bounded, before its letters have been read
    cases letters with
    | nil => exact ⟨List.forall_mem_cons.2 ⟨htoken, hbegin.1⟩, hbegin.2⟩
    | cons l more =>
      cases more with
      | nil =>
        rw [step]
        split
        · exact ⟨forall_mem_single htoken, trivial⟩
        · exact hbad
      | cons l' ls =>
        have hstep : step (.word (l :: l' :: ls) token) c
            = if c = l then ([], .word (l' :: ls) token) else ([.bad], .stuck) := rfl
        rw [hstep]
        split
        · exact ⟨forall_mem_nil, htoken⟩
        · exact hbad
  | number n =>
    rw [step]
    split
    · exact ⟨forall_mem_nil, trivial⟩
    · -- the numeral ends before a character that begins something else
      split
      · exact ⟨List.forall_mem_cons.2 ⟨hp.token n, hbegin.1⟩, hbegin.2⟩
      · exact hbad
  | text p =>
    rw [step]
    split_ifs
    · exact ⟨forall_mem_single trivial, trivial⟩
    · exact ⟨forall_mem_nil, trivial⟩
    · exact hbad
    · exact ⟨forall_mem_nil, trivial⟩
  | escape p =>
    rw [step]
    split
    · exact ⟨forall_mem_nil, trivial⟩
    · split
      · exact ⟨forall_mem_nil, trivial⟩
      · exact hbad
  | unit p left value =>
    rw [step]
    split
    · split
      · exact ⟨forall_mem_nil, trivial⟩
      · exact ⟨forall_mem_nil, trivial⟩
    · exact hbad
  | stuck => exact ⟨forall_mem_nil, trivial⟩

theorem bounded_atEnd (hp : Numeral.Gives p) {mode : Mode} (h : mode.Bounded p) :
    ∀ t ∈ atEnd mode, t.Bounded p := by
  unfold atEnd
  split
  · exact forall_mem_nil
  · exact forall_mem_nil
  · exact forall_mem_single h
  · next n =>
    split
    · exact forall_mem_single (hp.token n)
    · exact forall_mem_single trivial
  · exact forall_mem_single trivial

/-- All tokens of a text are bounded. -/
theorem bounded_tokens (hp : Numeral.Gives p) (s : String) : ∀ t ∈ tokens s, t.Bounded p := by
  have hscan : ∀ (cs : List Char) (mode : Mode), mode.Bounded p →
      ∀ t ∈ scan mode cs, t.Bounded p := by
    intro cs
    induction cs with
    | nil => exact fun mode h => bounded_atEnd hp h
    | cons c rest ih =>
      intro mode h t ht
      obtain ⟨htokens, hnext⟩ := bounded_step hp h c
      rcases List.mem_append.1 ht with ht | ht
      · exact htokens t ht
      · exact ih _ hnext t ht
  exact hscan s.toList .between trivial

/-! ## Trees -/

namespace Tree

variable {outer : Nat}

mutual

/-- All numbers of a tree inside `outer` brackets have a property, and no bracket stands inside
    more others than the reader takes. -/
def Bounded (p : Number → Prop) (outer : Nat) : Tree → Prop
  | .number (some n) => p n
  | .plain _ (some v) => v.Proper p ∧ outer + v.nesting ≤ maxDepth
  | .array items _ => outer < maxDepth ∧ BoundedItems p (outer + 1) items
  | .object entries _ => outer < maxDepth ∧ BoundedEntries p (outer + 1) entries
  | _ => True

/-- Some items are bounded. -/
def BoundedItems (p : Number → Prop) (outer : Nat) : List Tree → Prop
  | [] => True
  | t :: rest => Bounded p outer t ∧ BoundedItems p outer rest

/-- The values of some entries are bounded. -/
def BoundedEntries (p : Number → Prop) (outer : Nat) : List (Option String × Tree) → Prop
  | [] => True
  | (_, t) :: rest => Bounded p outer t ∧ BoundedEntries p outer rest

end

theorem boundedItems_iff {items : List Tree} :
    BoundedItems p outer items ↔ ∀ t ∈ items, t.Bounded p outer := by
  induction items with
  | nil => simp [BoundedItems]
  | cons t rest ih => simp [BoundedItems, ih]

theorem boundedEntries_iff {entries : List (Option String × Tree)} :
    BoundedEntries p outer entries ↔ ∀ e ∈ entries, e.2.Bounded p outer := by
  induction entries with
  | nil => simp [BoundedEntries]
  | cons e rest ih => simp [BoundedEntries, ih]

/-- All trees in a bracket that was opened inside `outer` others are bounded. -/
def Frame.Bounded (p : Number → Prop) (outer : Nat) : Frame → Prop
  | .array items => BoundedItems p (outer + 1) items
  | .object entries => BoundedEntries p (outer + 1) entries
  | .entry entries _ => BoundedEntries p (outer + 1) entries

/-- All open brackets are bounded, the innermost first. -/
def BoundedStack (p : Number → Prop) : List Frame → Prop
  | [] => True
  | frame :: outer => frame.Bounded p outer.length ∧ BoundedStack p outer

theorem Frame.Bounded.add {frame : Frame} (h : frame.Bounded p outer) {t : Tree}
    (ht : t.Bounded p (outer + 1)) : (frame.add t).Bounded p outer := by
  cases frame with
  | array items => exact ⟨ht, h⟩
  | object entries => exact h
  | entry entries key => exact ⟨ht, h⟩

/-- The limit of the reader is what bounds a bracket. -/
theorem bounded_limited {t : Tree} (ht : outer < maxDepth → t.Bounded p outer) (intact : Bool) :
    (limited outer t intact).Bounded p outer := by
  unfold limited
  split
  · next hinner => exact ht hinner
  · trivial

theorem Frame.Bounded.close {frame : Frame} (h : frame.Bounded p outer) (closed : Bool) :
    (frame.close outer closed).Bounded p outer := by
  have hreverse : ∀ entries, BoundedEntries p (outer + 1) entries →
      BoundedEntries p (outer + 1) entries.reverse := by
    intro entries hentries
    rw [boundedEntries_iff] at hentries ⊢
    exact fun e he => hentries e (List.mem_reverse.1 he)
  cases frame with
  | array items =>
    have hitems : BoundedItems p (outer + 1) items := h
    refine bounded_limited (t := .array items.reverse closed) (fun hinner => ⟨hinner, ?_⟩) closed
    exact boundedItems_iff.2 fun t ht => boundedItems_iff.1 hitems t (List.mem_reverse.1 ht)
  | object entries =>
    exact bounded_limited (t := .object entries.reverse closed)
      (fun hinner => ⟨hinner, hreverse entries h⟩) closed
  | entry entries key =>
    have hbroken : BoundedEntries p (outer + 1) ((key, .broken) :: entries) := ⟨trivial, h⟩
    exact bounded_limited (t := .object ((key, .broken) :: entries).reverse closed)
      (fun hinner => ⟨hinner, hreverse _ hbroken⟩) closed

theorem bounded_abandon {stack : List Frame} (h : BoundedStack p stack) {inner : Option Tree}
    (hinner : ∀ t, inner = some t → t.Bounded p stack.length) :
    (abandon inner stack).Bounded p 0 := by
  induction stack generalizing inner with
  | nil =>
    cases inner with
    | none => trivial
    | some t => exact hinner t rfl
  | cons frame outer ih =>
    obtain ⟨hframe, houter⟩ := h
    refine ih houter fun t ht => ?_
    obtain rfl := Option.some.inj ht
    cases inner with
    | none => exact hframe.close _
    | some t => exact (hframe.add (hinner t rfl)).close _

/-- What follows a value is bounded. -/
def Next.Bounded (p : Number → Prop) : Next → Prop
  | .done t => t.Bounded p 0
  | .continue _ stack => BoundedStack p stack

theorem bounded_settle {t : Tree} {stack : List Frame} (ht : t.Bounded p stack.length)
    (h : BoundedStack p stack) : (settle t stack).Bounded p := by
  cases stack with
  | nil => exact ht
  | cons frame outer => exact ⟨h.1.add ht, h.2⟩

theorem bounded_closeTop {stack : List Frame} (h : BoundedStack p stack) :
    (closeTop stack).Bounded p := by
  cases stack with
  | nil => trivial
  | cons frame outer => exact bounded_settle (h.1.close _) h.2

theorem bounded_atValue {token : Token} (htoken : token.Bounded p) {stack : List Frame}
    (h : BoundedStack p stack) {next : Next} (hnext : atValue token stack = some next) :
    next.Bounded p := by
  have hplain : ∀ t : Tree, t.Bounded p stack.length → some (settle t stack) = some next →
      next.Bounded p := by
    intro t ht heq
    obtain rfl := Option.some.inj heq
    exact bounded_settle ht h
  have hopen : ∀ expect frame, Frame.Bounded p stack.length frame →
      some (.continue expect (frame :: stack)) = some next → next.Bounded p := by
    intro expect frame hframe heq
    obtain rfl := Option.some.inj heq
    exact ⟨hframe, h⟩
  cases token with
  | null => exact hplain .null trivial hnext
  | bool b => exact hplain (.bool b) trivial hnext
  | number n =>
    refine hplain (.number n) ?_ hnext
    cases n with
    | none => trivial
    | some n => exact htoken
  | string s => exact hplain (.string s) trivial hnext
  | openArray => exact hopen _ (.array []) trivial hnext
  | openObject => exact hopen _ (.object []) trivial hnext
  | _ => cases hnext

theorem bounded_advance {token : Token} (htoken : token.Bounded p) {expect : Expect}
    {stack : List Frame} (h : BoundedStack p stack) {next : Next}
    (hnext : advance expect stack token = some next) : next.Bounded p := by
  unfold advance at hnext
  split at hnext
  · exact bounded_atValue htoken h hnext
  · obtain rfl := Option.some.inj hnext
    exact bounded_closeTop h
  · exact bounded_atValue htoken h hnext
  · obtain rfl := Option.some.inj hnext
    exact bounded_closeTop h
  · obtain rfl := Option.some.inj hnext
    exact h
  · obtain rfl := Option.some.inj hnext
    exact h
  · obtain rfl := Option.some.inj hnext
    exact ⟨h.1, h.2⟩
  · obtain rfl := Option.some.inj hnext
    exact h
  · obtain rfl := Option.some.inj hnext
    exact bounded_closeTop h
  · obtain rfl := Option.some.inj hnext
    exact h
  · obtain rfl := Option.some.inj hnext
    exact bounded_closeTop h
  · cases hnext

theorem bounded_withPendingKey {expect : Expect} {stack : List Frame} (h : BoundedStack p stack) :
    BoundedStack p (withPendingKey expect stack) := by
  unfold withPendingKey
  split
  · exact ⟨h.1, h.2⟩
  · exact h

/-- Bounded tokens are read as bounded trees, inside any open brackets. -/
theorem bounded_read {tokens : List Token} (htokens : ∀ t ∈ tokens, t.Bounded p) {expect : Expect}
    {stack : List Frame} (h : BoundedStack p stack) : (read expect stack tokens).1.Bounded p 0 := by
  have habandon : ∀ {expect : Expect} {stack : List Frame}, BoundedStack p stack →
      (abandon none (withPendingKey expect stack)).Bounded p 0 :=
    fun h => bounded_abandon (bounded_withPendingKey h) fun t ht => by cases ht
  induction tokens generalizing expect stack with
  | nil => exact habandon h
  | cons token rest ih =>
    obtain ⟨htoken, hrest⟩ := List.forall_mem_cons.1 htokens
    rw [read]
    cases hadvance : advance expect stack token with
    | none => exact habandon h
    | some next =>
      have hnext := bounded_advance htoken h hadvance
      cases next with
      | done t => exact hnext
      | «continue» expect stack => exact ih hrest hnext

/-- Every text is read as a bounded tree. -/
theorem bounded_ofText (hp : Numeral.Gives p) (s : String) : (ofText s).Bounded p 0 := by
  have hread : (read .value [] (tokens s)).1.Bounded p 0 :=
    bounded_read (bounded_tokens hp s) trivial
  unfold ofText
  split
  · next t heq =>
    rw [heq] at hread
    exact hread
  · trivial

/-! ## Values -/

mutual

/-- The value of a bounded tree is proper, and nests as the tree does at most. -/
theorem fits_of_toJson {outer : Nat} (t : Tree) (houter : outer ≤ maxDepth)
    (ht : t.Bounded p outer) {v : Json} (h : t.toJson = .ok v) :
    v.Proper p ∧ outer + v.nesting ≤ maxDepth := by
  match t, ht with
  | .null, _ =>
    obtain rfl := Except.ok.inj h
    exact ⟨trivial, houter⟩
  | .bool _, _ =>
    obtain rfl := Except.ok.inj h
    exact ⟨trivial, houter⟩
  | .number (some n), ht =>
    obtain rfl := Except.ok.inj h
    exact ⟨ht, houter⟩
  | .string (some s), _ =>
    obtain rfl := Except.ok.inj h
    exact ⟨trivial, houter⟩
  | .plain _ (some w), ht =>
    obtain rfl := Except.ok.inj h
    exact ht
  | .array items closed, ht =>
    cases hitems : toItems items with
    | error e => simp [toJson, hitems, bind, Except.bind] at h
    | ok vs =>
      obtain ⟨hproper, hnesting⟩ := fits_of_toItems items (Nat.succ_le_of_lt ht.1) ht.2 hitems
      cases closed with
      | false => simp [toJson, hitems, bind, Except.bind] at h
      | true =>
        obtain rfl : Json.array vs = v := by simpa [toJson, hitems, bind, Except.bind] using h
        exact ⟨hproper, by rw [nesting]; omega⟩
  | .object entries closed, ht =>
    cases hentries : toEntries entries with
    | error e => simp [toJson, hentries, bind, Except.bind] at h
    | ok vs =>
      obtain ⟨hproper, hnesting⟩ :=
        fits_of_toEntries entries (Nat.succ_le_of_lt ht.1) ht.2 hentries
      cases closed with
      | false => simp [toJson, hentries, bind, Except.bind] at h
      | true =>
        obtain rfl : Json.object (Entries.collapse vs) = v := by
          simpa [toJson, hentries, bind, Except.bind] using h
        have hcollapse := nestingEntries_collapse_le vs
        exact ⟨proper_collapse hproper, by rw [nesting]; omega⟩
  -- what is not a value is no tree of one
  | .number none, _ => cases h
  | .string none, _ => cases h
  | .plain _ none, _ => cases h
  | .tooDeep _, _ => cases h
  | .broken, _ => cases h

theorem fits_of_toItems {outer : Nat} (items : List Tree) (houter : outer ≤ maxDepth)
    (ht : BoundedItems p outer items) {vs : List Json} (h : toItems items = .ok vs) :
    ProperItems p vs ∧ outer + nestingItems vs ≤ maxDepth := by
  match items, ht with
  | [], _ =>
    obtain rfl := Except.ok.inj h
    exact ⟨trivial, houter⟩
  | t :: rest, ht =>
    cases hvalue : toJson t with
    | error e => simp [toItems, hvalue, bind, Except.bind] at h
    | ok v =>
      cases hrest : toItems rest with
      | error e => simp [toItems, hvalue, hrest, bind, Except.bind] at h
      | ok more =>
        obtain rfl : v :: more = vs := by simpa [toItems, hvalue, hrest, bind, Except.bind] using h
        obtain ⟨hfirst, hdepth⟩ := fits_of_toJson t houter ht.1 hvalue
        obtain ⟨hmore, hdepths⟩ := fits_of_toItems rest houter ht.2 hrest
        exact ⟨⟨hfirst, hmore⟩, by rw [nestingItems]; omega⟩

theorem fits_of_toEntries {outer : Nat} (entries : List (Option String × Tree))
    (houter : outer ≤ maxDepth) (ht : BoundedEntries p outer entries) {vs : List (String × Json)}
    (h : toEntries entries = .ok vs) :
    ProperEntries p vs ∧ outer + nestingEntries vs ≤ maxDepth := by
  match entries, ht with
  | [], _ =>
    obtain rfl := Except.ok.inj h
    exact ⟨trivial, houter⟩
  | (none, _) :: _, _ => cases h
  | (some k, t) :: rest, ht =>
    cases hvalue : toJson t with
    | error e => simp [toEntries, hvalue, bind, Except.bind] at h
    | ok v =>
      cases hrest : toEntries rest with
      | error e => simp [toEntries, hvalue, hrest, bind, Except.bind] at h
      | ok more =>
        obtain rfl : (k, v) :: more = vs := by
          simpa [toEntries, hvalue, hrest, bind, Except.bind] using h
        obtain ⟨hfirst, hdepth⟩ := fits_of_toJson t houter ht.1 hvalue
        obtain ⟨hmore, hdepths⟩ := fits_of_toEntries rest houter ht.2 hrest
        exact ⟨⟨hfirst, hmore⟩, by rw [nestingEntries]; omega⟩

end

/-- A bag of a bounded tree is proper, and nests as the tree does at most. -/
theorem fits_of_toBag {t : Tree} (ht : t.Bounded p outer) {bag : Bag} (h : t.toBag = .ok bag) :
    (Json.object bag).Proper p ∧ outer + (Json.object bag).nesting ≤ maxDepth := by
  unfold toBag at h
  split at h
  · next entries closed =>
    cases hentries : toEntries entries with
    | error e => simp [hentries, bind, Except.bind] at h
    | ok vs =>
      cases closed with
      | false => simp [hentries, bind, Except.bind] at h
      | true =>
        obtain rfl : Entries.collapse vs = bag := by
          simpa [hentries, bind, Except.bind] using h
        obtain ⟨hproper, hnesting⟩ :=
          fits_of_toEntries entries (Nat.succ_le_of_lt ht.1) ht.2 hentries
        have hcollapse := nestingEntries_collapse_le vs
        exact ⟨proper_collapse hproper, by rw [nesting]; omega⟩
  · cases h
  · cases h

theorem timeFits_of_toInt64 {t : Tree} {time : Int} (h : t.toInt64 = .ok time) : TimeFits time := by
  unfold toInt64 toIntIn at h
  split at h
  · split at h
    · next hbounds =>
      obtain rfl := Except.ok.inj h
      exact hbounds
    · cases h
  · split at h
    · next hbounds =>
      obtain rfl := Except.ok.inj h
      exact hbounds
    · cases h
  · cases h

end Tree

/-! ## Values without doubles -/

mutual

/-- Whether no number of a value is a double. -/
def doubleless : Json → Bool
  | .number (.float _) => false
  | .array items => doublelessItems items
  | .object entries => doublelessEntries entries
  | _ => true

/-- Whether no number of some items is a double. -/
def doublelessItems : List Json → Bool
  | [] => true
  | v :: rest => doubleless v && doublelessItems rest

/-- Whether no number in some entries is a double. -/
def doublelessEntries : List (String × Json) → Bool
  | [] => true
  | (_, v) :: rest => doubleless v && doublelessEntries rest

end

mutual

/-- What is bounded without doubles consists of integers of 64 bits. -/
theorem Proper.whole : (v : Json) → v.Proper Number.Bounded → v.doubleless = true →
    v.Proper Number.Whole
  | .null, _, _ => trivial
  | .bool _, _, _ => trivial
  | .number (.integer _), h, _ => h
  | .number (.float _), _, hd => by cases hd
  | .string _, _, _ => trivial
  | .array items, h, hd => ProperItems.whole items h hd
  | .object entries, h, hd => ⟨h.1, ProperEntries.whole entries h.2 hd⟩

theorem ProperItems.whole : (items : List Json) → ProperItems Number.Bounded items →
    doublelessItems items = true → ProperItems Number.Whole items
  | [], _, _ => trivial
  | v :: rest, h, hd => by
    rw [doublelessItems, Bool.and_eq_true] at hd
    exact ⟨Proper.whole v h.1 hd.1, ProperItems.whole rest h.2 hd.2⟩

theorem ProperEntries.whole : (entries : List (String × Json)) →
    ProperEntries Number.Bounded entries → doublelessEntries entries = true →
    ProperEntries Number.Whole entries
  | [], _, _ => trivial
  | (_, v) :: rest, h, hd => by
    rw [doublelessEntries, Bool.and_eq_true] at hd
    exact ⟨Proper.whole v h.1 hd.1, ProperEntries.whole rest h.2 hd.2⟩

end

/-! ## Records -/

namespace Record

variable {α β : Type} {B : Tree → Prop} {P : α → Prop} {Q : β → Prop}

/-- While a record is read from trees that satisfy `B` its state satisfies `I`, and the record that
    comes of it satisfies `P`. -/
structure Guards (a : Record α) (B : Tree → Prop) (I : a.State → Prop) (P : α → Prop) : Prop where
  start : I a.start
  accept : ∀ s key t next, B t → I s → a.accept s key t = some (.ok next) → I next
  places : ∀ items closed s rest, (∀ t ∈ items, B t) →
    a.places items closed = .ok (s, rest) → I s ∧ ∀ t ∈ rest, B t
  finish : ∀ s x, I s → a.finish s = .ok x → P x

/-- Records whose fields are read from trees that satisfy `B` satisfy `P`. -/
def Yields (a : Record α) (B : Tree → Prop) (P : α → Prop) : Prop := ∃ I, a.Guards B I P

theorem yields_field {name : String} {decode : Tree → Decoded α} {absent : Decoded α}
    (hdecode : ∀ t x, B t → decode t = .ok x → P x) (habsent : ∀ x, absent = .ok x → P x) :
    (field name decode absent).Yields B P := by
  have hnone : ∀ x, (none : Option α) = some x → P x := fun x hx => by cases hx
  -- what has been taken in so far was decoded from a tree in bounds
  refine ⟨fun s => ∀ x, s = some x → P x, hnone, ?_, ?_, ?_⟩
  · intro s key t next ht hs haccept x hx
    subst hx
    simp only [field, Option.ite_none_right_eq_some, Option.some.injEq] at haccept
    obtain ⟨-, hvalue⟩ := haccept
    split at hvalue
    · cases hvalue
    · cases hdecoded : decode t with
      | error e => rw [hdecoded] at hvalue; cases hvalue
      | ok y =>
        rw [hdecoded] at hvalue
        obtain rfl : y = x := Option.some.inj (Except.ok.inj hvalue)
        exact hdecode t y ht hdecoded
  · intro items closed s rest hitems hplaces
    cases items with
    | nil =>
      cases closed with
      | false => cases hplaces
      | true =>
        obtain ⟨rfl, rfl⟩ := Prod.mk.inj (Except.ok.inj hplaces)
        exact ⟨hnone, hitems⟩
    | cons t more =>
      obtain ⟨ht, hmore⟩ := List.forall_mem_cons.1 hitems
      replace hplaces : (decode t).map (fun v => (some v, more)) = .ok (s, rest) := hplaces
      cases hdecoded : decode t with
      | error e => rw [hdecoded] at hplaces; cases hplaces
      | ok y =>
        rw [hdecoded] at hplaces
        obtain ⟨rfl, rfl⟩ := Prod.mk.inj (Except.ok.inj hplaces)
        refine ⟨fun x hx => ?_, hmore⟩
        obtain rfl := Option.some.inj hx
        exact hdecode t y ht hdecoded
  · intro s x hs hfinish
    cases s with
    | none => exact habsent x hfinish
    | some y =>
      obtain rfl : y = x := Except.ok.inj hfinish
      exact hs y rfl

theorem yields_nothing {x : α} (h : P x) : (nothing x).Yields B P := by
  refine ⟨fun _ => True, trivial, fun _ _ _ _ _ _ _ => trivial, ?_, ?_⟩
  · intro items closed s rest hitems hplaces
    obtain ⟨rfl, rfl⟩ := Prod.mk.inj (Except.ok.inj hplaces)
    exact ⟨trivial, hitems⟩
  · intro s y _ hfinish
    obtain rfl : x = y := Except.ok.inj hfinish
    exact h

theorem yields_map {f : α → β} {a : Record α} (h : a.Yields B fun x => Q (f x)) :
    (map f a).Yields B Q := by
  obtain ⟨I, hI⟩ := h
  refine ⟨I, hI.start, hI.accept, hI.places, fun s y hs hfinish => ?_⟩
  replace hfinish : (a.finish s).map f = .ok y := hfinish
  cases hx : a.finish s with
  | error e => rw [hx] at hfinish; cases hfinish
  | ok x =>
    rw [hx] at hfinish
    obtain rfl := Except.ok.inj hfinish
    exact hI.finish s x hs hx

theorem yields_both {a : Record α} {b : Record β} (ha : a.Yields B P) (hb : b.Yields B Q) :
    (both a b).Yields B fun x => P x.1 ∧ Q x.2 := by
  obtain ⟨I, hI⟩ := ha
  obtain ⟨J, hJ⟩ := hb
  refine ⟨fun s => I s.1 ∧ J s.2, ⟨hI.start, hJ.start⟩, ?_, ?_, ?_⟩
  · -- the second record is asked only about a field that the first one does not take
    rintro ⟨s, t⟩ key tree ⟨s', t'⟩ htree ⟨hs, ht⟩ haccept
    simp only [both] at haccept
    split at haccept
    · next taken htaken =>
      cases taken with
      | error e => cases Option.some.inj haccept
      | ok first =>
        obtain ⟨rfl, rfl⟩ := Prod.mk.inj (Except.ok.inj (Option.some.inj haccept))
        exact ⟨hI.accept s key tree _ htree hs htaken, ht⟩
    · obtain ⟨taken, htaken, hnext⟩ := Option.map_eq_some_iff.1 haccept
      cases taken with
      | error e => cases hnext
      | ok second =>
        obtain ⟨rfl, rfl⟩ := Prod.mk.inj (Except.ok.inj hnext)
        exact ⟨hs, hJ.accept t key tree _ htree ht htaken⟩
  · -- of a list the first record takes its places, and the second one those after them
    rintro items closed ⟨s, t⟩ rest hitems hplaces
    simp only [both] at hplaces
    cases hfirst : a.places items closed with
    | error e => rw [hfirst] at hplaces; cases hplaces
    | ok first =>
      obtain ⟨s', items'⟩ := first
      obtain ⟨hs, hitems'⟩ := hI.places items closed s' items' hitems hfirst
      rw [hfirst] at hplaces
      cases hsecond : b.places items' closed with
      | error e => simp [hsecond, bind, Except.bind] at hplaces
      | ok second =>
        obtain ⟨t', items''⟩ := second
        obtain ⟨ht, hrest⟩ := hJ.places items' closed t' items'' hitems' hsecond
        obtain ⟨⟨rfl, rfl⟩, rfl⟩ : (s' = s ∧ t' = t) ∧ items'' = rest := by
          simpa [hsecond, bind, Except.bind] using hplaces
        exact ⟨⟨hs, ht⟩, hrest⟩
  · rintro ⟨s, t⟩ ⟨x, y⟩ ⟨hs, ht⟩ hfinish
    simp only [both] at hfinish
    cases hx : a.finish s with
    | error e => simp [hx, bind, Except.bind] at hfinish
    | ok x' =>
      cases hy : b.finish t with
      | error e => simp [hx, hy, bind, Except.bind] at hfinish
      | ok y' =>
        obtain ⟨rfl, rfl⟩ : x' = x ∧ y' = y := by
          simpa [hx, hy, bind, Except.bind] using hfinish
        exact ⟨hI.finish s x' hs hx, hJ.finish t y' ht hy⟩

/-- A weaker property is satisfied as well. -/
theorem Yields.mono {a : Record α} {P' : α → Prop} (h : a.Yields B P) (hP : ∀ x, P x → P' x) :
    a.Yields B P' := by
  obtain ⟨I, hI⟩ := h
  exact ⟨I, hI.start, hI.accept, hI.places, fun s x hs hx => hP x (hI.finish s x hs hx)⟩

theorem Guards.absorb {a : Record α} {I : a.State → Prop} (h : a.Guards B I P)
    {entries : List (Option String × Tree)} (hentries : ∀ e ∈ entries, B e.2)
    {unknown : Unknown} {s t : a.State} (hs : I s)
    (habsorb : a.absorb unknown s entries = .ok t) : I t := by
  induction entries generalizing s with
  | nil =>
    obtain rfl : s = t := Except.ok.inj habsorb
    exact hs
  | cons e rest ih =>
    obtain ⟨he, hrest⟩ := List.forall_mem_cons.1 hentries
    obtain ⟨key | key, value⟩ := e
    · cases habsorb
    · rw [Record.absorb] at habsorb
      cases haccept : a.accept s key value with
      | none =>
        simp only [haccept] at habsorb
        split at habsorb
        · cases habsorb
        · cases hskip : value.skip with
          | error e => simp [hskip, bind, Except.bind] at habsorb
          | ok u => exact ih hrest hs (by simpa [hskip, bind, Except.bind] using habsorb)
      | some taken =>
        simp only [haccept] at habsorb
        cases taken with
        | error e => simp [bind, Except.bind] at habsorb
        | ok next =>
          exact ih hrest (h.accept s key value next he hs haccept)
            (by simpa [bind, Except.bind] using habsorb)

/-- What a record is read as from a bounded tree, of whatever form. -/
theorem Yields.decode {a : Record α} {outer : Nat} (h : a.Yields (Tree.Bounded p (outer + 1)) P)
    {t : Tree} (ht : t.Bounded p outer) {x : α} (hdecode : a.decode t = .ok x) : P x := by
  obtain ⟨I, hI⟩ := h
  unfold Record.decode read at hdecode
  split at hdecode
  · next entries closed =>
    rw [ofEntries] at hdecode
    cases habsorb : a.absorb .skipped a.start entries with
    | error e => simp [habsorb, bind, Except.bind] at hdecode
    | ok s =>
      have hs := hI.absorb (Tree.boundedEntries_iff.1 ht.2) hI.start habsorb
      cases closed with
      | false => simp [habsorb, bind, Except.bind] at hdecode
      | true => exact hI.finish s x hs (by simpa [habsorb, bind, Except.bind] using hdecode)
  · next items closed =>
    rw [ofItems] at hdecode
    cases hplaces : a.places items closed with
    | error e => simp [hplaces, bind, Except.bind] at hdecode
    | ok placed =>
      obtain ⟨s, rest⟩ := placed
      have hs := (hI.places items closed s rest (Tree.boundedItems_iff.1 ht.2) hplaces).1
      cases hfinish : a.finish s with
      | error e => simp [hplaces, hfinish, bind, Except.bind] at hdecode
      | ok y =>
        simp only [hplaces, hfinish, bind, Except.bind] at hdecode
        split at hdecode
        · obtain rfl := Except.ok.inj hdecode
          exact hI.finish s y hs hfinish
        · cases hdecode
  · exact hI.finish _ _ hI.start hdecode
  · cases hdecode
  · cases hdecode

theorem yields_optional {name : String} {decode : Tree → Decoded α}
    (hdecode : ∀ t x, B t → decode t = .ok x → P x) :
    (optional name decode).Yields B fun found => ∀ x, found = some x → P x := by
  refine yields_field (fun t found ht hfound x hx => ?_) fun found hfound x hx => ?_
  · subst hx
    unfold Tree.toOption at hfound
    split at hfound
    · cases hfound
    · cases hfound
    · cases hdecoded : decode t with
      | error e => rw [hdecoded] at hfound; cases hfound
      | ok y =>
        rw [hdecoded] at hfound
        obtain rfl : y = x := Option.some.inj (Except.ok.inj hfound)
        exact hdecode t y ht hdecoded
  · subst hx
    cases hfound

end Record

end Json

/-! ## Entities -/

open Json (Tree Record maxDepth)

variable {c : EntityClass} {p : Number → Prop} {outer : Nat}

theorem Id.fits_of_decode (houter : outer ≤ maxDepth) {t : Tree} (ht : t.Bounded p outer) {id : Id}
    (h : Id.decode t = .ok id) : id.value.Proper p ∧ outer + id.value.nesting ≤ maxDepth := by
  rw [Id.decode] at h
  cases hjson : t.toJson with
  | error e => rw [hjson] at h; cases h
  | ok v =>
    rw [hjson] at h
    obtain rfl := Except.ok.inj h
    exact t.fits_of_toJson houter ht hjson

theorem Id.yields (houter : outer ≤ maxDepth) (name : String) :
    (Record.required name Id.decode).Yields (Tree.Bounded p outer)
      fun id => id.value.Proper p ∧ outer + id.value.nesting ≤ maxDepth :=
  Record.yields_field (fun _ _ ht h => Id.fits_of_decode houter ht h) fun _ h => by cases h

theorem EntityClass.yields_ends (c : EntityClass) (houter : outer ≤ maxDepth) :
    c.endsRecord.Yields (Tree.Bounded p outer) fun ends =>
      c.ProperEnds p ends ∧ outer + Json.nestingEntries (c.endsEntries ends) ≤ maxDepth := by
  cases c with
  | node => exact Record.yields_nothing ⟨trivial, houter⟩
  | relationship =>
    refine Record.yields_map ((Record.yields_both (Id.yields houter _) (Id.yields houter _)).mono ?_)
    rintro ends ⟨⟨hstart, hstartDepth⟩, hfinish, hfinishDepth⟩
    refine ⟨⟨hstart, hfinish⟩, ?_⟩
    simp only [endsEntries, Json.nestingEntries]
    omega

/-- Whatever tree of a text an entity is read from, it is proper, and its own text nests within
    the limit of the reader.  A bag that is absent there is written in two brackets. -/
theorem Entity.fits_of_decode (houter : outer + 2 ≤ maxDepth) {t : Tree} (ht : t.Bounded p outer)
    {e : Entity c} (h : Entity.decode t = .ok e) :
    e.Proper p ∧ outer + e.toJson.nesting ≤ maxDepth := by
  have hinner : outer + 1 ≤ maxDepth := by omega
  have htype : (Record.required "type" Tree.toText).Yields (Tree.Bounded p (outer + 1))
      fun _ => True :=
    Record.yields_field (fun _ _ _ _ => trivial) fun _ _ => trivial
  have hbag : (Record.withDefault "properties" Tree.toBag []).Yields (Tree.Bounded p (outer + 1))
      fun bag => (Json.object bag).Proper p
        ∧ outer + 1 + (Json.object bag).nesting ≤ maxDepth :=
    Record.yields_field (fun _ _ ht h => Tree.fits_of_toBag ht h) fun bag h => by
      obtain rfl := Except.ok.inj h
      exact ⟨⟨List.nodup_nil, trivial⟩, houter⟩
  have htime : (Record.optional "updateTime" Tree.toInt64).Yields (Tree.Bounded p (outer + 1))
      fun time => ∀ t, time = some t → TimeFits t :=
    Record.yields_optional fun _ _ _ h => Tree.timeFits_of_toInt64 h
  -- field by field, in the order in which the record asks for them
  have hfields := Record.yields_both (Id.yields hinner "id") (Record.yields_both htype
    (Record.yields_both hbag (Record.yields_both (c.yields_ends hinner) htime)))
  have hrecord : (Entity.record c).Yields (Tree.Bounded p (outer + 1))
      fun e => e.Proper p ∧ outer + e.toJson.nesting ≤ maxDepth := by
    refine Record.yields_map (hfields.mono ?_)
    rintro ⟨id, type, bag, ends, time⟩
      ⟨⟨hid, hidDepth⟩, -, ⟨hproperties, hbagDepth⟩, ⟨hends, hendsDepth⟩, htimes⟩
    refine ⟨⟨hid, hproperties, hends, htimes⟩, ?_⟩
    have htimeDepth : Json.nestingEntries (optionalEntry "updateTime" Json.ofInt time) = 0 := by
      cases time <;> rfl
    have htypeDepth : (Json.string type).nesting = 0 := rfl
    rw [Entity.toJson, Json.nesting, Json.nestingEntries_append, Json.nestingEntries_append,
      htimeDepth]
    simp only [Json.nestingEntries] at hidDepth hbagDepth hendsDepth ⊢
    omega
  exact hrecord.decode ht h

/-- An integer of 64 bits is bounded. -/
theorem Number.Whole.bounded : (n : Number) → n.Whole → n.Bounded
  | .integer _, h => h

/-- An entity is proper if its text is, its time being within its bounds. -/
theorem Entity.proper_of_toJson {p : Number → Prop} {e : Entity c} (h : e.toJson.Proper p)
    (htime : ∀ t, e.updateTime = some t → TimeFits t) : e.Proper p := by
  have hvalues := Json.properEntries_iff.1 h.2
  refine ⟨hvalues ("id", e.id.value) (by simp),
    hvalues ("properties", .object e.properties) (by simp), ?_, htime⟩
  cases c with
  | node => trivial
  | relationship =>
    exact ⟨hvalues ("startNodeId", e.ends.startId.value) (by simp [EntityClass.endsEntries]),
      hvalues ("endNodeId", e.ends.endId.value) (by simp [EntityClass.endsEntries])⟩

/-- A bounded entity without doubles consists of integers of 64 bits. -/
theorem Entity.Proper.whole {e : Entity c} (he : e.Proper Number.Bounded)
    (hd : e.toJson.doubleless = true) : e.Proper Number.Whole :=
  Entity.proper_of_toJson (Json.Proper.whole _ (he.toJson Number.Whole.bounded) hd) he.time

end PropertyGraph
