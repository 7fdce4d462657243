/-
  PropertyGraph.Proofs.Json.PrintedTree

  The tree of a printed value.  It is the tree of the value itself, with two differences:
  each number is what its text reads as, and an array or object inside 127 others is cut
  off.  The reader keeps a stack of open brackets; what is proved is how it leaves the
  tokens of one value, whatever the stack and whatever comes after them.
-/
import PropertyGraph.Json.Syntax
import PropertyGraph.Proofs.Json.PrintedText

namespace PropertyGraph.Json

/-! ## The tree of a value inside brackets -/

mutual

/-- The tree that the text of a value is read as, inside `outer` brackets. -/
def printedTree (outer : Nat) : Json → Tree
  | .null => .null
  | .bool b => .bool b
  | .number n => .number (some n.reread)
  | .string s => .string (some s)
  | .array items => Tree.limited outer (.array (printedItems (outer + 1) items) true) true
  | .object entries =>
    Tree.limited outer (.object (printedEntries (outer + 1) entries) true) true

/-- The trees that the texts of some items are read as. -/
def printedItems (outer : Nat) : List Json → List Tree
  | [] => []
  | v :: rest => printedTree outer v :: printedItems outer rest

/-- The entries that the texts of some entries are read as. -/
def printedEntries (outer : Nat) : List (String × Json) → List (Option String × Tree)
  | [] => []
  | (k, v) :: rest => (some k, printedTree outer v) :: printedEntries outer rest

end

theorem printedItems_eq_map (outer : Nat) (items : List Json) :
    printedItems outer items = items.map (printedTree outer) := by
  induction items with
  | nil => rfl
  | cons v rest ih => rw [printedItems, ih, List.map_cons]

theorem printedEntries_eq_map (outer : Nat) (entries : List (String × Json)) :
    printedEntries outer entries = entries.map fun e => (some e.1, printedTree outer e.2) := by
  induction entries with
  | nil => rfl
  | cons e rest ih => rw [printedEntries, ih, List.map_cons]

namespace Tree

/-! ## Going on after a value -/

/-- Goes on with the tokens after a value. -/
def resume : Next → List Token → Tree × List Token
  | .done tree, rest => (tree, rest)
  | .continue expect stack, rest => read expect stack rest

theorem read_of_advance {expect : Expect} {stack : List Frame} {token : Token} {n : Next}
    (h : advance expect stack token = some n) (rest : List Token) :
    read expect stack (token :: rest) = resume n rest := by
  rw [read, h]
  cases n <;> rfl

/-- The first token of a value closes nothing. -/
theorem valueTokens_head (v : Json) : ∃ t rest, valueTokens v = t :: rest ∧ t ≠ .closeArray := by
  cases v <;> exact ⟨_, _, rfl, by simp⟩

theorem itemTokens_head (v : Json) (items : List Json) :
    ∃ t rest, itemTokens (v :: items) = t :: rest ∧ t ≠ .closeArray := by
  obtain ⟨t, rest, hv, ht⟩ := valueTokens_head v
  cases items with
  | nil => exact ⟨t, rest, by rw [itemTokens, hv], ht⟩
  | cons w more => exact ⟨t, rest ++ .comma :: itemTokens (w :: more), by simp [itemTokens, hv], ht⟩

/-- After an opening bracket a value is read as anywhere else. -/
theorem read_valueOrClose {stack : List Frame} {token : Token} (h : token ≠ .closeArray)
    (rest : List Token) :
    read .valueOrClose stack (token :: rest) = read .value stack (token :: rest) := by
  have hadvance : advance .valueOrClose stack token = advance .value stack token := by
    cases stack with
    | nil => cases token <;> rfl
    | cons frame outer => cases frame <;> cases token <;> first | rfl | exact absurd rfl h
  have habandon : withPendingKey .valueOrClose stack = withPendingKey .value stack := rfl
  rw [read, read, hadvance, habandon]

/-! ## Values -/

mutual

/-- The tokens of a value are read as its tree, which goes where the stack wants it. -/
theorem read_valueTokens (v : Json) (stack : List Frame) (rest : List Token) :
    read .value stack (valueTokens v ++ rest)
      = resume (settle (printedTree stack.length v) stack) rest := by
  match v with
  | .null => exact read_of_advance rfl rest
  | .bool b => exact read_of_advance rfl rest
  | .number n => exact read_of_advance rfl rest
  | .string s => exact read_of_advance rfl rest
  | .array [] =>
    rw [valueTokens, itemTokens, List.cons_append, List.cons_append,
      read_of_advance (n := .continue .valueOrClose (.array [] :: stack)) rfl]
    exact read_of_advance rfl rest
  -- an opening bracket may be followed by an item or by its end, which the first token decides
  | .array (v :: items) =>
    obtain ⟨t, more, hhead, ht⟩ := itemTokens_head v items
    have hitems := read_itemTokens (v :: items) (by simp) [] stack rest
    rw [hhead, List.cons_append] at hitems
    simp only [valueTokens, hhead, List.cons_append, List.append_assoc, List.nil_append]
    rw [read_of_advance (n := .continue .valueOrClose (.array [] :: stack)) rfl]
    show read .valueOrClose (.array [] :: stack) _ = _
    rw [read_valueOrClose ht, hitems, List.append_nil, closeTop, Frame.close, List.reverse_reverse,
      printedTree]
  | .object [] =>
    rw [valueTokens, entryTokens, List.cons_append, List.cons_append,
      read_of_advance (n := .continue .keyOrClose (.object [] :: stack)) rfl]
    exact read_of_advance rfl rest
  | .object ((k, v) :: entries) =>
    have hentries := read_entryTokens ((k, v) :: entries) (by simp) [] stack rest .keyOrClose
      fun _ => rfl
    simp only [valueTokens, List.cons_append, List.append_assoc, List.nil_append]
    rw [read_of_advance (n := .continue .keyOrClose (.object [] :: stack)) rfl]
    show read .keyOrClose (.object [] :: stack) _ = _
    rw [hentries, List.append_nil, closeTop, Frame.close, List.reverse_reverse, printedTree]

/-- The tokens of the remaining items of an array are read up to its closing bracket. -/
theorem read_itemTokens (items : List Json) (hne : items ≠ []) (before : List Tree)
    (stack : List Frame) (rest : List Token) :
    read .value (.array before :: stack) (itemTokens items ++ .closeArray :: rest)
      = resume (closeTop (.array ((printedItems (stack.length + 1) items).reverse ++ before)
          :: stack)) rest := by
  match items, hne with
  | [v], _ =>
    rw [itemTokens, read_valueTokens v (.array before :: stack)]
    exact read_of_advance rfl rest
  | v :: w :: more, _ =>
    simp only [itemTokens, List.append_assoc, List.cons_append]
    rw [read_valueTokens v (.array before :: stack)]
    show read .separator (.array (printedTree (stack.length + 1) v :: before) :: stack) _ = _
    rw [read_of_advance (n := .continue .value
      (.array (printedTree (stack.length + 1) v :: before) :: stack)) rfl]
    show read .value (.array (printedTree (stack.length + 1) v :: before) :: stack) _ = _
    rw [read_itemTokens (w :: more) (by simp) _ stack rest]
    simp [printedItems]

/-- The tokens of the remaining entries of an object are read up to its closing bracket. -/
theorem read_entryTokens (entries : List (String × Json)) (hne : entries ≠ [])
    (before : List (Option String × Tree)) (stack : List Frame) (rest : List Token)
    (expect : Expect)
    (hkey : ∀ k, advance expect (.object before :: stack) (.string k)
      = some (.continue (.colon k) (.object before :: stack))) :
    read expect (.object before :: stack) (entryTokens entries ++ .closeObject :: rest)
      = resume (closeTop (.object ((printedEntries (stack.length + 1) entries).reverse ++ before)
          :: stack)) rest := by
  match entries, hne with
  -- key, colon and value in turn, after which the bracket closes the object
  | [(k, v)], _ =>
    simp only [entryTokens, List.cons_append]
    rw [read_of_advance (hkey (some k))]
    show read (.colon (some k)) (.object before :: stack) _ = _
    rw [read_of_advance (n := .continue .value (.entry before (some k) :: stack)) rfl]
    show read .value (.entry before (some k) :: stack) _ = _
    rw [read_valueTokens v (.entry before (some k) :: stack)]
    exact read_of_advance rfl rest
  | (k, v) :: e :: more, _ =>
    simp only [entryTokens, List.append_assoc, List.cons_append]
    rw [read_of_advance (hkey (some k))]
    show read (.colon (some k)) (.object before :: stack) _ = _
    rw [read_of_advance (n := .continue .value (.entry before (some k) :: stack)) rfl]
    show read .value (.entry before (some k) :: stack) _ = _
    rw [read_valueTokens v (.entry before (some k) :: stack)]
    show read .separator
      (.object ((some k, printedTree (stack.length + 1) v) :: before) :: stack) _ = _
    rw [read_of_advance (n := .continue .key
      (.object ((some k, printedTree (stack.length + 1) v) :: before) :: stack)) rfl]
    show read .key (.object ((some k, printedTree (stack.length + 1) v) :: before) :: stack) _ = _
    rw [read_entryTokens (e :: more) (by simp) _ stack rest .key fun _ => rfl]
    simp [printedEntries]

end

/-- The tree of the tokens of a value that stand alone. -/
theorem ofText_of_tokens {v : Json} {text : String} (h : tokens text = valueTokens v) :
    ofText text = printedTree 0 v := by
  have hread := read_valueTokens v [] []
  rw [List.append_nil] at hread
  rw [ofText, h, hread]
  rfl

/-- The tree of a value printed over several lines. -/
theorem ofText_pretty {v : Json} (h : v.Proper Number.Legible) : ofText v.pretty = printedTree 0 v :=
  ofText_of_tokens (tokens_pretty h)

end Tree

end PropertyGraph.Json
