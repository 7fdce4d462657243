/-
  PropertyGraph.Proofs.Searcher.CompiledMeaning

  What a compiled searcher answers is what the searcher means.  Compiling reads all paths
  into one table, keyed by their texts; `eval` looks them up there, `holds` reads each path
  where it stands.  The two agree on every table that gives each path of the searcher as it
  reads by itself, and the table that compiling makes is such a table.
-/
import PropertyGraph.Searcher.Meaning

namespace PropertyGraph

variable {c : EntityClass}

namespace Searcher

/-! ## The table of paths -/

/-- A table gives every path of a list as it reads by itself. -/
def Covers (table : Entries PropertyPath) (ps : List String) : Prop :=
  ∀ p ∈ ps, ∃ path, table.get? p = some path ∧ PropertyPath.read p = .ok path

theorem Covers.mono {table : Entries PropertyPath} {ps qs : List String}
    (h : Covers table ps) (hsub : ∀ q ∈ qs, q ∈ ps) : Covers table qs :=
  fun q hq => h q (hsub q hq)

/-- Reading succeeds exactly when every single path can be read. -/
theorem readPaths_isOk_iff (ps : List String) :
    (∃ table, readPaths ps = .ok table) ↔ ∀ p ∈ ps, ∃ path, PropertyPath.read p = .ok path := by
  induction ps with
  | nil => simp [readPaths]
  | cons p rest ih =>
    cases hp : PropertyPath.read p with
    | error failure => simp [readPaths, hp, bind, Except.bind]
    | ok path =>
      cases hrest : readPaths rest with
      | error failure =>
        have hnone : ¬ ∀ q ∈ rest, ∃ path, PropertyPath.read q = .ok path := by
          rw [← ih, hrest]
          simp
        constructor
        · simp [readPaths, hp, hrest, bind, Except.bind]
        · intro h
          exact absurd (fun q hq => h q (List.mem_cons_of_mem _ hq)) hnone
      | ok table =>
        have hall : ∀ q ∈ rest, ∃ path, PropertyPath.read q = .ok path := ih.1 ⟨table, hrest⟩
        constructor
        · intro _ q hq
          rcases List.mem_cons.1 hq with rfl | hq
          · exact ⟨path, hp⟩
          · exact hall q hq
        · intro _
          exact ⟨(p, path) :: table, by simp [readPaths, hp, hrest, bind, Except.bind]⟩

/-- The table read for some paths covers them. -/
theorem covers_of_readPaths {ps : List String} {table : Entries PropertyPath}
    (h : readPaths ps = .ok table) : Covers table ps := by
  induction ps generalizing table with
  | nil => intro p hp; cases hp
  | cons q rest ih =>
    cases hq : PropertyPath.read q with
    | error failure => simp [readPaths, hq, bind, Except.bind] at h
    | ok path =>
      cases hrest : readPaths rest with
      | error failure => simp [readPaths, hq, hrest, bind, Except.bind] at h
      | ok more =>
        have htable : table = (q, path) :: more := by
          simpa [readPaths, hq, hrest, bind, Except.bind] using h.symm
        subst htable
        intro p hp
        by_cases hpq : q = p
        · subst hpq
          exact ⟨path, by simp [Entries.get?], hq⟩
        · obtain ⟨found, hget, hread⟩ := ih hrest p (by
            rcases List.mem_cons.1 hp with rfl | hp
            · exact absurd rfl hpq
            · exact hp)
          exact ⟨found, by simpa [Entries.get?, hpq] using hget, hread⟩

theorem checkPaths_ok_iff (s : Searcher) :
    s.checkPaths = .ok () ↔ ∀ p ∈ s.paths, ∃ path, PropertyPath.read p = .ok path := by
  rw [← readPaths_isOk_iff, checkPaths]
  cases readPaths s.paths <;> simp [Except.map]

/-! ## Evaluation -/

mutual

/-- On a table that covers its paths, a searcher evaluates to what it means. -/
theorem eval_eq_holds (evaluator : Evaluator c) (table : Entries PropertyPath) (e : Entity c) :
    (s : Searcher) → Covers table s.paths →
      CompiledSearcher.eval evaluator table e s = holds evaluator e s
  | .always, _ => rfl
  | .never, _ => rfl
  | .typeEq _, _ => rfl
  | .extension _ _, _ => rfl
  | .propertyEq path value, h => by
    obtain ⟨p, hget, hread⟩ := h path (by simp [paths])
    simp [CompiledSearcher.eval, holds, hget, hread]
  | .all searchers, h => by
    rw [CompiledSearcher.eval, holds]
    exact evalAll_eq_holdsAll evaluator table e searchers (by simpa [paths] using h)
  | .any searchers, h => by
    rw [CompiledSearcher.eval, holds]
    exact evalAny_eq_holdsAny evaluator table e searchers (by simpa [paths] using h)
  | .not searcher, h => by
    rw [CompiledSearcher.eval, holds,
      eval_eq_holds evaluator table e searcher (by simpa [paths] using h)]

theorem evalAll_eq_holdsAll (evaluator : Evaluator c) (table : Entries PropertyPath)
    (e : Entity c) : (ss : List Searcher) → Covers table (pathsAll ss) →
      CompiledSearcher.evalAll evaluator table e ss = holdsAll evaluator e ss
  | [], _ => rfl
  | s :: rest, h => by
    have hs : Covers table s.paths := h.mono fun q hq => by simp [pathsAll, hq]
    have hrest : Covers table (pathsAll rest) := h.mono fun q hq => by simp [pathsAll, hq]
    have hfirst := eval_eq_holds evaluator table e s hs
    have hmore := evalAll_eq_holdsAll evaluator table e rest hrest
    rcases hheld : holds evaluator e s with failure | (_ | _) <;>
      simp only [CompiledSearcher.evalAll, holdsAll, hfirst, hheld, hmore]

theorem evalAny_eq_holdsAny (evaluator : Evaluator c) (table : Entries PropertyPath)
    (e : Entity c) : (ss : List Searcher) → Covers table (pathsAll ss) →
      CompiledSearcher.evalAny evaluator table e ss = holdsAny evaluator e ss
  | [], _ => rfl
  | s :: rest, h => by
    have hs : Covers table s.paths := h.mono fun q hq => by simp [pathsAll, hq]
    have hrest : Covers table (pathsAll rest) := h.mono fun q hq => by simp [pathsAll, hq]
    have hfirst := eval_eq_holds evaluator table e s hs
    have hmore := evalAny_eq_holdsAny evaluator table e rest hrest
    rcases hheld : holds evaluator e s with failure | (_ | _) <;>
      simp only [CompiledSearcher.evalAny, holdsAny, hfirst, hheld, hmore]

end

/-- A searcher whose paths can be read tests every entity as its meaning says. -/
theorem test_eq_holds (evaluator : Evaluator c) {s : Searcher} (h : s.checkPaths = .ok ())
    (e : Entity c) : s.test evaluator e = s.holds evaluator e := by
  obtain ⟨table, htable⟩ := (readPaths_isOk_iff s.paths).2 ((checkPaths_ok_iff s).1 h)
  have heval := eval_eq_holds evaluator table e s (covers_of_readPaths htable)
  simpa [test, compile, htable, bind, Except.bind, CompiledSearcher.test] using heval

end Searcher

/-! ## Filtering -/

/-- Two compiled searchers that test every entity of a list alike keep the same of them. -/
theorem CompiledSearcher.filter_congr {m n : CompiledSearcher c} {es : List (Entity c)}
    (h : ∀ e ∈ es, m.test e = n.test e) : m.filter es = n.filter es := by
  induction es with
  | nil => rfl
  | cons e rest ih =>
    rw [CompiledSearcher.filter, CompiledSearcher.filter, h e (List.mem_cons_self ..),
      ih fun x hx => h x (List.mem_cons_of_mem _ hx)]

/-- Nothing is kept of entities none of which matches. -/
theorem CompiledSearcher.filter_eq_nil {m : CompiledSearcher c} {es kept : List (Entity c)}
    (h : ∀ e ∈ es, m.test e ≠ .ok true) (hkept : m.filter es = .ok kept) : kept = [] := by
  induction es generalizing kept with
  | nil => simpa [CompiledSearcher.filter] using hkept.symm
  | cons e rest ih =>
    have hrest : ∀ x ∈ rest, m.test x ≠ .ok true := fun x hx => h x (List.mem_cons_of_mem _ hx)
    have he := h e (List.mem_cons_self ..)
    cases htest : m.test e with
    | error failure => simp [CompiledSearcher.filter, htest] at hkept
    | ok hit =>
      cases hit with
      | true => exact absurd htest he
      | false =>
        cases hmore : m.filter rest with
        | error failure => simp [CompiledSearcher.filter, htest, hmore] at hkept
        | ok more =>
          have hnil : more = [] := ih hrest hmore
          simpa [CompiledSearcher.filter, htest, hmore, hnil] using hkept.symm

theorem CompiledSearcher.filter_sublist {m : CompiledSearcher c} {es kept : List (Entity c)}
    (h : m.filter es = .ok kept) : List.Sublist kept es := by
  induction es generalizing kept with
  | nil =>
    obtain rfl : [] = kept := Except.ok.inj h
    exact .slnil
  | cons e rest ih =>
    rw [filter] at h
    cases htest : m.test e with
    | error failure => rw [htest] at h; cases h
    | ok hit =>
      rw [htest] at h
      simp only at h
      cases hmore : m.filter rest with
      | error failure => rw [hmore] at h; cases h
      | ok more =>
        rw [hmore] at h
        rw [← Except.ok.inj h]
        cases hit with
        | false => exact (ih hmore).cons e
        | true => exact (ih hmore).cons_cons e

/-- A list in two parts is filtered part by part. -/
theorem CompiledSearcher.filter_append (m : CompiledSearcher c) (first second : List (Entity c)) :
    m.filter (first ++ second)
      = m.filter first >>= fun kept => m.filter second >>= fun more => .ok (kept ++ more) := by
  induction first with
  | nil => rw [List.nil_append, filter]; cases m.filter second <;> rfl
  | cons e rest ih =>
    rw [List.cons_append, filter, filter, ih]
    cases m.test e with
    | error failure => rfl
    | ok hit =>
      cases m.filter rest with
      | error failure => rfl
      | ok kept => cases m.filter second <;> cases hit <;> rfl

/-- The compiled form of a searcher tests as the searcher does. -/
theorem Searcher.compile_test {evaluator : Evaluator c} {s : Searcher} {m : CompiledSearcher c}
    (h : s.compile evaluator = .ok m) (e : Entity c) : m.test e = s.test evaluator e := by
  simp [Searcher.test, h, bind, Except.bind]

/-- A searcher whose paths can be read compiles. -/
theorem Searcher.compile_isOk {s : Searcher} (evaluator : Evaluator c)
    (h : s.checkPaths = .ok ()) : ∃ m, s.compile evaluator = .ok m := by
  obtain ⟨table, htable⟩ := (readPaths_isOk_iff s.paths).2 ((checkPaths_ok_iff s).1 h)
  exact ⟨_, by simp [Searcher.compile, htable, bind, Except.bind]; rfl⟩

end PropertyGraph
