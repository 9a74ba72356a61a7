import CircuitRouting.Cli.Compile
import CircuitRouting.Cli.FileTree
import CircuitRouting.Proofs.Except
import CircuitRouting.Proofs.Text

/-!
# Files that are written and read

A file that was written in a directory is read back, and the others in that directory are as they were.
-/

namespace CircuitRouting.FileTree

open OutputName (join)

variable {t t' : FileTree} {p q r : Place} {ps : List String} {part dir f g text : String}

-- Names that a file can have in a directory.
structure IsName (f : String) : Prop where
  plain : MadeOf (· ≠ '/') f
  notEmpty : f ≠ ""
  notHere : f ≠ "."
  notUp : f ≠ ".."

theorem IsName.notTop (name : IsName f) : f ≠ "/" := by
  rintro rfl
  exact absurd name.plain (by decide)

theorem child_of_isName (name : IsName f) : child p f = p ++ [f] := by
  simp [child, name.notEmpty, name.notHere, name.notUp, name.notTop]

section Paths

-- What slashes divide, without the one that a path starts with.
def segments (path : List Char) : List String :=
  (path.splitOn '/').map String.ofList

theorem segments_append (x y : List Char) : segments (x ++ '/' :: y) = segments x ++ segments y := by
  rw [segments, List.splitOn, List.splitOnP_append_cons _ _ (by decide), List.map_append]
  rfl

theorem segments_of_isName (name : IsName f) : segments f.toList = [f] := by
  have free : '/' ∉ f.toList := fun mem => by simpa using name.plain '/' mem
  simp [segments, List.splitOn_eq_singleton free]

theorem pieces_eq (path : String) :
    pieces path = (if path.startsWith "/" then ["/"] else []) ++ segments path.toList := by
  rw [pieces]
  split <;> rfl

theorem startsWith_append {s r : String} (some : s ≠ "") :
    (s ++ r).startsWith "/" = s.startsWith "/" := by
  have ⟨c, cs, eq⟩ := List.exists_cons_of_ne_nil fun nil => some (String.toList_eq_nil_iff.mp nil)
  rw [Bool.eq_iff_iff, String.startsWith_string_iff, String.startsWith_string_iff,
    String.toList_append, eq]
  simp

theorem pieces_join (dir : String) (name : IsName f) :
    ∃ ps, pieces (join dir f) = ps ++ [f] ∧ ps.filter (· ≠ "") = parts dir := by
  by_cases empty : dir = ""
  case pos =>
    refine ⟨[], ?_, by simp [empty, parts, pieces]⟩
    have first : ¬f.startsWith "/" := by
      rw [String.startsWith_string_iff]
      intro slash
      exact absurd (name.plain '/' (slash.subset (by simp))) (by simp)
    simp [join, empty, pieces_eq, first, segments_of_isName name]
  case neg =>
    by_cases slash : dir.endsWith "/"
    case pos =>
      have ⟨d, eq⟩ : ∃ d, dir = d ++ "/" := by
        have ⟨cs, eq⟩ := String.Slice.endsWith_string_iff.mp slash
        refine ⟨String.ofList cs, String.toList_inj.mp ?_⟩
        simpa using eq.symm
      have whole : join dir f = dir ++ f := by simp [join, slash]
      refine ⟨(if dir.startsWith "/" then ["/"] else []) ++ segments d.toList, ?_, ?_⟩
      case refine_1 =>
        rw [whole, pieces_eq, startsWith_append empty, eq]
        simp [segments_append, segments_of_isName name]
      case refine_2 =>
        have last : segments dir.toList = segments d.toList ++ [""] := by
          rw [eq, String.toList_append]
          exact segments_append d.toList []
        rw [parts, pieces_eq, last, ← List.append_assoc, List.filter_append]
        simp
    case neg =>
      have whole : join dir f = dir ++ "/" ++ f := by simp [join, slash, empty]
      refine ⟨pieces dir, ?_, rfl⟩
      rw [whole, pieces_eq, String.append_assoc, startsWith_append empty, pieces_eq]
      simp [segments_append, segments_of_isName name]

end Paths

section Follow

@[simp]
theorem follow_nil : t.follow p [] = .ok p :=
  rfl

theorem follow_cons_eq_ok_iff : t.follow p (part :: ps) = .ok q ↔
    t.isDirectory p ∧ checkName part = .ok () ∧ t.has (child p part) ∧
      t.follow (child p part) ps = .ok q := by
  simp [follow, refuse_eq_ok_iff, bind_eq_ok_iff, Unique.exists_iff]

theorem follow_append_eq_ok_iff {rest : List String} :
    t.follow p (ps ++ rest) = .ok q ↔ ∃ r, t.follow p ps = .ok r ∧ t.follow r rest = .ok q := by
  induction ps generalizing p
  case nil => simp
  case cons part ps hi => simp [follow_cons_eq_ok_iff, hi, and_assoc]

theorem isDirectory_of_follow (some : ps ≠ []) (h : t.follow p ps = .ok q) : t.isDirectory p := by
  cases ps
  case nil => contradiction
  case cons => exact (follow_cons_eq_ok_iff.mp h).1

-- An empty part stays in the directory, which the next part needs as well.
theorem follow_filter_eq_ok_iff : t.follow p (ps.filter (· ≠ "") ++ [part]) = .ok q ↔
    t.follow p (ps ++ [part]) = .ok q := by
  induction ps generalizing p
  case nil => rfl
  case cons first ps hi =>
    by_cases empty : first = ""
    case pos =>
      have here : child p first = p := by simp [child, empty]
      have named : checkName first = .ok () := empty ▸ rfl
      have needed : t.follow p (ps ++ [part]) = .ok q → t.isDirectory p :=
        isDirectory_of_follow (by simp)
      rw [List.filter_cons_of_neg (by simpa using empty), hi, List.cons_append,
        follow_cons_eq_ok_iff, here]
      exact ⟨fun h => ⟨needed h, named, by simp [has, needed h], h⟩, fun h => h.2.2.2⟩
    case neg =>
      rw [List.filter_cons_of_pos (by simpa using empty), List.cons_append, List.cons_append,
        follow_cons_eq_ok_iff, follow_cons_eq_ok_iff, hi]

end Follow

section Put

@[simp]
theorem isDirectory_put : (t.put r text).isDirectory p = t.isDirectory p :=
  rfl

@[simp]
theorem lookup_put_self : (t.put p text).files.lookup p = some text := by
  simp [put]

theorem lookup_put_of_ne (ne : q ≠ p) : (t.put p text).files.lookup q = t.files.lookup q := by
  have kept : ∀ l : List (Place × String), (l.filter fun f => f.1 ≠ p).lookup q = l.lookup q := by
    intro l
    induction l
    case nil => rfl
    case cons file l hi =>
      have ⟨r, _⟩ := file
      by_cases gone : r = p
      case pos =>
        rw [List.filter_cons_of_neg (by simpa using gone), hi, List.lookup_cons, gone, beq_false_of_ne ne]
      case neg =>
        rw [List.filter_cons_of_pos (by simpa using gone), List.lookup_cons, List.lookup_cons, hi]
  rw [put, List.lookup_cons, beq_false_of_ne ne, kept]

theorem has_put (h : t.has p) : (t.put r text).has p := by
  by_cases same : p = r
  case pos => simp [has, same]
  case neg => simpa [has, lookup_put_of_ne same] using h

theorem follow_put (h : t.follow p ps = .ok q) : (t.put r text).follow p ps = .ok q := by
  induction ps generalizing p
  case nil => exact h
  case cons part ps hi =>
    have ⟨directory, named, present, rest⟩ := follow_cons_eq_ok_iff.mp h
    exact follow_cons_eq_ok_iff.mpr ⟨directory, named, has_put present, hi rest⟩

end Put

-- A directory at a place, and a name that a file may have in it.
structure Leads (t : FileTree) (dir f : String) (p : Place) : Prop where
  path : checkPath (join dir f) = .ok ()
  name : checkName f = .ok ()
  follow : t.follow [] (parts dir) = .ok p
  directory : t.isDirectory p

theorem Leads.put (h : t.Leads dir f p) : (t.put r text).Leads dir f p :=
  ⟨h.path, h.name, follow_put h.follow, h.directory⟩

theorem Leads.unique (h : t.Leads dir f p) (h' : t.Leads dir g q) : p = q :=
  Except.ok.inj (h.follow.symm.trans h'.follow)

theorem join_ne_empty (name : IsName f) : join dir f ≠ "" := by
  rw [join]
  split <;> simp [name.notEmpty]

theorem locate_join_eq_ok_iff (name : IsName f) : t.locate (join dir f) = .ok q ↔
    ∃ p, t.Leads dir f p ∧ t.has (p ++ [f]) ∧ p ++ [f] = q := by
  have ⟨ps, eq, kept⟩ := pieces_join dir name
  have followed : t.follow [] (pieces (join dir f)) = .ok q ↔ ∃ p, t.follow [] (parts dir) = .ok p ∧
      t.isDirectory p ∧ checkName f = .ok () ∧ t.has (p ++ [f]) ∧ p ++ [f] = q := by
    rw [eq, ← follow_filter_eq_ok_iff, kept, follow_append_eq_ok_iff]
    simp [follow_cons_eq_ok_iff, child_of_isName name]
  simp only [locate, refuse_eq_ok_iff, bind_eq_ok_iff, Unique.exists_iff, join_ne_empty name,
    not_false_eq_true, true_and, followed]
  refine ⟨?_, ?_⟩
  case refine_1 =>
    rintro ⟨path, p, follow, directory, named, present, same⟩
    exact ⟨p, ⟨path, named, follow, directory⟩, present, same⟩
  case refine_2 =>
    rintro ⟨p, leads, present, same⟩
    exact ⟨leads.path, p, leads.follow, leads.directory, leads.name, present, same⟩

theorem read_join_eq_text_iff (name : IsName f) : t.read (join dir f) = .text text ↔
    ∃ p, t.Leads dir f p ∧ t.files.lookup (p ++ [f]) = some text := by
  have located : t.read (join dir f) = .text text ↔
      ∃ q, t.locate (join dir f) = .ok q ∧ t.files.lookup q = some text := by
    rw [read]
    grind
  simp only [located, locate_join_eq_ok_iff name]
  refine ⟨?_, ?_⟩
  case refine_1 =>
    rintro ⟨_, ⟨p, leads, _, rfl⟩, found⟩
    exact ⟨p, leads, found⟩
  case refine_2 =>
    rintro ⟨p, leads, found⟩
    exact ⟨_, ⟨p, leads, by simp [has, found], rfl⟩, found⟩

theorem ending_concat_eq_ok_iff {x : Place × String} (name : IsName f) : t.ending (ps ++ [f]) = .ok x ↔
    ∃ p, t.follow [] ps = .ok p ∧ t.isDirectory p ∧ checkName f = .ok () ∧ (p, f) = x := by
  simp only [ending, refuse_eq_ok_iff, bind_eq_ok_iff, Unique.exists_iff, List.dropLast_concat,
    List.getLastD_concat]
  simp [name.notHere, name.notUp, name.notTop, pure, Except.pure]

theorem write_join_eq_ok_iff (name : IsName f) : t.write (join dir f) text = .ok t' ↔
    ∃ p, t.Leads dir f p ∧ ¬t.isDirectory (p ++ [f]) ∧ t.put (p ++ [f]) text = t' := by
  have parts : parts (join dir f) = parts dir ++ [f] := by
    have ⟨ps, eq, kept⟩ := pieces_join dir name
    rw [parts, eq, List.filter_append, kept]
    simp [name.notEmpty]
  simp only [write, refuse_eq_ok_iff, bind_eq_ok_iff, Unique.exists_iff, parts,
    ending_concat_eq_ok_iff name, pure, Except.pure, Except.ok.injEq]
  refine ⟨?_, ?_⟩
  case refine_1 =>
    rintro ⟨path, _, ⟨p, follow, directory, named, rfl⟩, free, same⟩
    exact ⟨p, ⟨path, named, follow, directory⟩, free, same⟩
  case refine_2 =>
    rintro ⟨p, leads, free, same⟩
    exact ⟨leads.path, _, ⟨p, leads.follow, leads.directory, leads.name, rfl⟩, free, same⟩

theorem read_of_write (name : IsName f) (h : t.write (join dir f) text = .ok t') :
    t'.read (join dir f) = .text text := by
  have ⟨p, leads, _, eq⟩ := (write_join_eq_ok_iff name).mp h
  rw [← eq]
  exact (read_join_eq_text_iff name).mpr ⟨p, leads.put, lookup_put_self⟩

-- Other files in the directory keep their texts.
theorem read_of_write_of_ne {other : String} (name : IsName f) (name' : IsName g) (ne : f ≠ g)
    (h : t.read (join dir f) = .text text) (written : t.write (join dir g) other = .ok t') :
    t'.read (join dir f) = .text text := by
  have ⟨p, leads, found⟩ := (read_join_eq_text_iff name).mp h
  have ⟨q, leads', _, eq⟩ := (write_join_eq_ok_iff name').mp written
  cases leads.unique leads'
  rw [← eq]
  have apart : p ++ [f] ≠ p ++ [g] := by simpa using ne
  exact (read_join_eq_text_iff name).mpr ⟨p, leads.put, (lookup_put_of_ne apart).trans found⟩

end CircuitRouting.FileTree
