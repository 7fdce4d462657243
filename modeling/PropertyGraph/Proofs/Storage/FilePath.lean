/-
  PropertyGraph.Proofs.Storage.FilePath

  Paths of files directly below another path.  A plain name put below a path is the last of
  its names, the names before it being those of the path, and exchanging the extension of
  such a path exchanges the extension of the name.
-/
import PropertyGraph.Storage.FileTree

namespace PropertyGraph

namespace FilePath

/-! ## Names between slashes -/

theorem parts_ne_nil (cs : List Char) : parts cs ≠ [] := by
  cases cs with
  | nil => simp [parts]
  | cons c rest =>
    rw [parts]
    split
    · simp
    · split <;> simp

/-- A text without slashes is a single name. -/
theorem parts_of_no_slash {cs : List Char} (h : '/' ∉ cs) : parts cs = [cs] := by
  induction cs with
  | nil => rfl
  | cons c rest ih =>
    have hrest := ih fun hmem => h (List.mem_cons_of_mem _ hmem)
    have hc : c ≠ '/' := fun he => h (he ▸ List.mem_cons_self ..)
    simp [parts, hc, hrest]

/-- A slash divides the names before it from those after it. -/
theorem parts_append_slash (cs ds : List Char) : parts (cs ++ '/' :: ds) = parts cs ++ parts ds := by
  induction cs with
  | nil => simp [parts]
  | cons c rest ih =>
    by_cases hc : c = '/'
    · simp [parts, hc, ih]
    · rw [List.cons_append, parts, if_neg hc, ih, parts, if_neg hc]
      cases hparts : parts rest with
      | nil => exact absurd hparts (parts_ne_nil rest)
      | cons p more => rfl

/-- A name that stands for itself: not empty, without slashes, and none of the points that
    stand for a directory. -/
structure PlainName (name : String) : Prop where
  ne_empty : name ≠ ""
  ne_point : name ≠ "."
  ne_points : name ≠ ".."
  no_slash : '/' ∉ name.toList

theorem startsWith_slash_iff {s : String} : s.startsWith "/" = true ↔ ∃ cs, s.toList = '/' :: cs := by
  rw [String.startsWith_string_iff]
  constructor
  · rintro ⟨cs, h⟩
    exact ⟨cs, h.symm⟩
  · rintro ⟨cs, h⟩
    exact ⟨cs, h.symm⟩

theorem endsWith_slash_iff {s : String} : s.endsWith "/" = true ↔ ∃ cs, s.toList = cs ++ ['/'] := by
  have hsuffix : s.endsWith "/" = true ↔ "/".toList <:+ s.toList := by
    rw [← String.endsWith_toSlice, String.Slice.endsWith_string_iff, String.copy_toSlice]
  rw [hsuffix]
  constructor
  · rintro ⟨cs, h⟩
    exact ⟨cs, h.symm⟩
  · rintro ⟨cs, h⟩
    exact ⟨cs, h.symm⟩

/-- The name of the directory of raw texts. -/
theorem plainName_raw : PlainName "raw" := ⟨by decide, by decide, by decide, by decide⟩

theorem PlainName.not_absolute {name : String} (h : PlainName name) :
    name.startsWith "/" = false := by
  rw [← Bool.not_eq_true, startsWith_slash_iff]
  rintro ⟨cs, hcs⟩
  exact h.no_slash (hcs ▸ List.mem_cons_self ..)

/-! ## A name below a path -/

/-- What stands before a name that is put below a path. -/
def below (base : String) : String :=
  if base.isEmpty || base.endsWith "/" then base else base ++ "/"

theorem join_plain {base name : String} (h : PlainName name) : join base name = below base ++ name := by
  rw [join, below, if_neg (by simp [h.not_absolute])]
  split <;> simp [String.append_assoc]

/-- What stands before a name is nothing or ends in a slash. -/
theorem below_toList (base : String) :
    (below base).toList = [] ∨ ∃ cs, (below base).toList = cs ++ ['/'] := by
  rw [below]
  split
  · next h =>
    rcases Bool.or_eq_true_iff.1 h with h | h
    · exact .inl (by simp [String.isEmpty_iff.1 h])
    · exact .inr (endsWith_slash_iff.1 h)
  · exact .inr ⟨base.toList, by simp [String.toList_append]⟩

/-- The names of a path with a name put below it: those of the path, but for an empty one at
    its end, and the name. -/
theorem names_join {base name : String} (h : PlainName name) :
    ∃ before, FileTree.names (join base name) = before ++ [name]
      ∧ (FileTree.names base = before ∨ FileTree.names base = before ++ [""]) := by
  have hname : parts name.toList = [name.toList] := parts_of_no_slash h.no_slash
  rw [join_plain h, below]
  by_cases hbase : base.isEmpty = true
  · have hempty : base = "" := String.isEmpty_iff.1 hbase
    refine ⟨[], ?_, .inr ?_⟩
    · simp [hempty, FileTree.names, hname]
    · simp [hempty, FileTree.names, parts]
  · by_cases hends : base.endsWith "/" = true
    · obtain ⟨cs, hcs⟩ := endsWith_slash_iff.1 hends
      refine ⟨(parts cs).map String.ofList, ?_, .inr ?_⟩
      · rw [if_pos (by simp [hends]), FileTree.names, String.toList_append, hcs, List.append_assoc,
          List.singleton_append, parts_append_slash, hname]
        simp
      · rw [FileTree.names, hcs, parts_append_slash]
        simp [parts]
    · refine ⟨FileTree.names base, ?_, .inl rfl⟩
      rw [if_neg (by simp [hbase, hends]), FileTree.names, String.toList_append,
        String.toList_append]
      have hslash : "/".toList = ['/'] := rfl
      rw [hslash, List.append_assoc, List.singleton_append, parts_append_slash, hname]
      simp [FileTree.names]

theorem toList_eq_cons_of_ne_empty {s : String} (h : s ≠ "") : ∃ c cs, s.toList = c :: cs := by
  cases hs : s.toList with
  | nil => exact absurd (String.toList_inj.1 hs) h
  | cons c cs => exact ⟨c, cs, rfl⟩

/-- A path with a name below it starts where the path starts. -/
theorem isAbsolute_join {base name : String} (h : PlainName name) :
    isAbsolute (join base name) = isAbsolute base := by
  rw [isAbsolute, isAbsolute, join_plain h]
  by_cases hbase : base = ""
  · have hbelow : below base = "" := by simp [below, hbase]
    rw [hbelow, String.empty_append, h.not_absolute, hbase]
    rfl
  · obtain ⟨c, cs, hcs⟩ := toList_eq_cons_of_ne_empty hbase
    have hbelow : ∃ more, (below base).toList = c :: more := by
      rw [below]
      split
      · exact ⟨cs, hcs⟩
      · exact ⟨cs ++ ['/'], by simp [String.toList_append, hcs]⟩
    obtain ⟨more, hmore⟩ := hbelow
    rw [Bool.eq_iff_iff, startsWith_slash_iff, startsWith_slash_iff]
    simp [String.toList_append, hmore, hcs]

theorem join_ne_empty {base name : String} (h : PlainName name) : (join base name).isEmpty = false := by
  rw [String.isEmpty_eq_false_iff, join_plain h]
  intro hempty
  have := congrArg String.toList hempty
  rw [String.toList_append] at this
  exact h.ne_empty (String.toList_inj.1 (List.append_eq_nil_iff.1 this).2)

/-! ## The last name of a path -/

/-- What follows the last slash of a text. -/
def lastPart (cs : List Char) : List Char := (parts cs).getLast (parts_ne_nil cs)

theorem lastPart_eq {cs last : List Char} {before : List (List Char)}
    (h : parts cs = before ++ [last]) : lastPart cs = last := by
  simp [lastPart, h]

theorem exists_parts_append {ds : List Char} (h : '/' ∉ ds) (cs : List Char) :
    ∃ before last, parts cs = before ++ [last] ∧ parts (cs ++ ds) = before ++ [last ++ ds] := by
  induction cs with
  | nil => exact ⟨[], [], rfl, parts_of_no_slash h⟩
  | cons c rest ih =>
    obtain ⟨before, last, hrest, happend⟩ := ih
    by_cases hc : c = '/'
    · refine ⟨[] :: before, last, ?_, ?_⟩
      · rw [parts, if_pos hc, hrest]
        rfl
      · rw [List.cons_append, parts, if_pos hc, happend]
        rfl
    · -- the character goes to the first name, which may be the last one as well
      cases before with
      | nil =>
        refine ⟨[], c :: last, ?_, ?_⟩
        · rw [parts, if_neg hc, hrest]
          rfl
        · rw [List.cons_append, parts, if_neg hc, happend]
          rfl
      | cons first before =>
        refine ⟨(c :: first) :: before, last, ?_, ?_⟩
        · rw [parts, if_neg hc, hrest]
          rfl
        · rw [List.cons_append, parts, if_neg hc, happend]
          rfl

/-- What has no slash goes to the last name. -/
theorem parts_append_no_slash {ds : List Char} (h : '/' ∉ ds) (cs : List Char) :
    ∃ before, parts cs = before ++ [lastPart cs]
      ∧ parts (cs ++ ds) = before ++ [lastPart cs ++ ds] := by
  obtain ⟨before, last, hparts, happend⟩ := exists_parts_append h cs
  rw [lastPart_eq hparts]
  exact ⟨before, hparts, happend⟩

theorem lastPart_append {ds : List Char} (h : '/' ∉ ds) (cs : List Char) :
    lastPart (cs ++ ds) = lastPart cs ++ ds := by
  obtain ⟨before, -, happend⟩ := parts_append_no_slash h cs
  exact lastPart_eq happend

theorem no_slash_of_mem_parts {cs p : List Char} (h : p ∈ parts cs) : '/' ∉ p := by
  induction cs generalizing p with
  | nil =>
    rw [parts, List.mem_singleton] at h
    rw [h]
    exact List.not_mem_nil
  | cons c rest ih =>
    rw [parts] at h
    split at h
    · rcases List.mem_cons.1 h with rfl | h
      · exact List.not_mem_nil
      · exact ih h
    · next hc =>
      split at h
      · next hnil => exact absurd hnil (parts_ne_nil rest)
      · next first more hparts =>
        rcases List.mem_cons.1 h with rfl | h
        · intro hmem
          rcases List.mem_cons.1 hmem with he | hmem
          · exact hc he.symm
          · exact ih (hparts ▸ List.mem_cons_self ..) hmem
        · exact ih (hparts ▸ List.mem_cons_of_mem _ h)

theorem not_mem_lastPart (cs : List Char) : '/' ∉ lastPart cs :=
  no_slash_of_mem_parts (List.getLast_mem (parts_ne_nil cs))

/-- Whatever a path is put below, its last name stays the last one. -/
theorem names_join_last (base name : String) :
    ∃ before, FileTree.names (join base name)
      = before ++ [String.ofList (lastPart name.toList)] := by
  obtain ⟨before, hparts, -⟩ := parts_append_no_slash (List.not_mem_nil : '/' ∉ []) name.toList
  -- A path is either the name itself or has the name behind a slash.
  have hslash : ∀ cs : List Char, ∃ front,
      (parts (cs ++ '/' :: name.toList)).map String.ofList
        = front ++ [String.ofList (lastPart name.toList)] := by
    intro cs
    refine ⟨(parts cs ++ before).map String.ofList, ?_⟩
    rw [parts_append_slash, hparts, ← List.append_assoc, List.map_append, List.map_singleton]
  have hself : ∃ front, (parts name.toList).map String.ofList
      = front ++ [String.ofList (lastPart name.toList)] := by
    refine ⟨before.map String.ofList, ?_⟩
    rw [hparts, List.map_append, List.map_singleton]
  rw [join]
  split
  · exact hself
  · split
    · next hbase =>
      rw [FileTree.names, String.toList_append]
      rcases Bool.or_eq_true_iff.1 hbase with hempty | hends
      · rw [String.isEmpty_iff.1 hempty]
        exact hself
      · obtain ⟨cs, hcs⟩ := endsWith_slash_iff.1 hends
        rw [hcs, List.append_assoc]
        exact hslash cs
    · rw [FileTree.names, String.toList_append, String.toList_append, List.append_assoc]
      exact hslash base.toList

/-! ## Exchanging an extension -/

theorem takeWhile_reverse_name {name : String} (h : '/' ∉ name.toList) {before : List Char}
    (hbefore : before = [] ∨ ∃ cs, before = cs ++ ['/']) :
    ((before ++ name.toList).reverse.takeWhile (· != '/')) = name.toList.reverse
      ∧ ((before ++ name.toList).reverse.dropWhile (· != '/')) = before.reverse := by
  have hall : ∀ c ∈ name.toList.reverse, (c != '/') = true := by
    intro c hc
    have : c ∈ name.toList := List.mem_reverse.1 hc
    simpa using fun he : c = '/' => h (he ▸ this)
  have hstop : before.reverse = [] ∨ ∃ cs, before.reverse = '/' :: cs := by
    rcases hbefore with rfl | ⟨cs, rfl⟩
    · exact .inl rfl
    · exact .inr ⟨cs.reverse, by simp⟩
  rw [List.reverse_append, List.takeWhile_append_of_pos hall, List.dropWhile_append_of_pos hall]
  rcases hstop with hstop | ⟨cs, hstop⟩ <;> simp [hstop]

theorem stemAndExtension_json {stem : String} (h : stem ≠ "") :
    stemAndExtension (stem ++ ".json") = (stem, some "json") := by
  have hback : (stem ++ ".json").toList.reverse = 'n' :: 'o' :: 's' :: 'j' :: '.' :: stem.toList.reverse := by
    rw [String.toList_append]
    simp
  obtain ⟨c, cs, hcs⟩ : ∃ c cs, stem.toList.reverse = c :: cs := by
    cases hs : stem.toList.reverse with
    | nil => exact absurd (String.toList_inj.1 (List.reverse_eq_nil_iff.1 hs)) h
    | cons c cs => exact ⟨c, cs, rfl⟩
  have hstem : String.ofList (c :: cs).reverse = stem := by
    rw [← hcs, List.reverse_reverse, String.ofList_toList]
  simp only [stemAndExtension, hback, hcs]
  simp [List.takeWhile, List.dropWhile, ← hstem]

/-- A text without slashes is a plain name when three characters or more follow it. -/
theorem plainName_append {stem tail : String} (hstem : '/' ∉ stem.toList)
    (htail : '/' ∉ tail.toList) (hlength : 3 ≤ tail.length) : PlainName (stem ++ tail) := by
  have hlong : ∀ s : String, s.length < 3 → stem ++ tail ≠ s := by
    intro s hs he
    have := congrArg String.length he
    rw [String.length_append] at this
    omega
  exact ⟨hlong _ (by decide), hlong _ (by decide), hlong _ (by decide),
    by rw [String.toList_append, List.mem_append]; exact not_or.2 ⟨hstem, htail⟩⟩

/-- The last name of a document's path is the name of the document. -/
theorem split?_join_json {base stem : String} (h : PlainName (stem ++ ".json")) :
    split? (join base (stem ++ ".json")) = some (below base, stem ++ ".json") := by
  obtain ⟨htake, hdrop⟩ := takeWhile_reverse_name h.no_slash (below_toList base)
  -- the name ends in a letter, so there is no tail to drop
  have hback : dropTail (join base (stem ++ ".json")).toList.reverse
      = ((below base).toList ++ (stem ++ ".json").toList).reverse := by
    rw [join_plain h, String.toList_append]
    have hlast : (stem ++ ".json").toList = (stem.toList ++ ['.', 'j', 's', 'o']) ++ ['n'] := by
      rw [String.toList_append]
      simp
    rw [hlast, ← List.append_assoc, List.reverse_append]
    rfl
  rw [split?]
  simp only [hback, htake, hdrop, List.reverse_reverse]
  have hnames : ¬ ((stem ++ ".json").toList.isEmpty = true) ∧ (stem ++ ".json").toList ≠ ['.']
      ∧ (stem ++ ".json").toList ≠ ['.', '.'] := by
    refine ⟨?_, ?_, ?_⟩
    · intro hnil
      exact h.ne_empty (String.toList_inj.1 (List.isEmpty_iff.1 hnil))
    · exact fun he => h.ne_point (String.toList_inj.1 he)
    · exact fun he => h.ne_points (String.toList_inj.1 he)
  simp only [hnames, String.ofList_toList]
  simp

/-- Exchanging the extension of a document's path. -/
theorem withExtension_join_json {base stem : String} (hslash : '/' ∉ stem.toList)
    (hempty : stem ≠ "") (hpoint : stem ≠ ".") :
    withExtension (join base (stem ++ ".json")) "json.tmp" = join base (stem ++ ".json.tmp") := by
  have hjson : PlainName (stem ++ ".json") := plainName_append hslash (by decide) (by decide)
  have htmp : PlainName (stem ++ ".json.tmp") := plainName_append hslash (by decide) (by decide)
  have hexchanged : stem ++ ".json.tmp" = stem ++ "." ++ "json.tmp" := by
    rw [String.append_assoc]
    rfl
  rw [withExtension, split?_join_json hjson, join_plain htmp, hexchanged]
  simp only [stemAndExtension_json hempty]
  split
  · next h => exact absurd (Prod.mk.inj h).1 hpoint
  · next h =>
    obtain ⟨rfl, -⟩ := Prod.mk.inj h
    simp [String.append_assoc]

end FilePath

end PropertyGraph
