import PluginHost.Proofs.Text
import PluginHost.Storage.Edit

/-!
The last name of a path: how it is found, and how another name is put in its place. The way to it is
that of the parent, single dots aside.
-/

namespace PluginHost

/-- A name that is no pair of dots or a part of one and has no slash in it. -/
structure Path.PlainName (name : String) : Prop where
  ne : name ≠ ""
  dot : name ≠ "."
  dots : name ≠ ".."
  slash : '/' ∉ name.toList

namespace Path

instance (name : String) : Decidable (PlainName name) :=
  decidable_of_iff (name ≠ "" ∧ name ≠ "." ∧ name ≠ ".." ∧ '/' ∉ name.toList)
    ⟨fun ⟨ne, dot, dots, slash⟩ => ⟨ne, dot, dots, slash⟩, fun h => ⟨h.ne, h.dot, h.dots, h.slash⟩⟩

theorem toList_eq_nil_iff {s : String} : s.toList = [] ↔ s = "" := by
  rw [← String.toList_inj]
  simp

theorem toList_ne {a b : String} (h : a ≠ b) : a.toList ≠ b.toList :=
  fun heq => h (String.toList_inj.mp heq)

theorem PlainName.component? {name : String} (h : PlainName name) (first : Bool) :
    component? first name.toList = some (.name name) := by
  have hne : name.toList ≠ [] := fun heq => h.ne (toList_eq_nil_iff.mp heq)
  have hdot : name.toList ≠ ['.'] := toList_ne h.dot
  have hdots : name.toList ≠ ['.', '.'] := toList_ne h.dots
  simp [Path.component?, hne, hdot, hdots]

theorem PlainName.isDots_eq_false {name : String} (h : PlainName name) :
    Storage.isDots name = false := by
  simp [Storage.isDots, h.dot, h.dots]

theorem fileName_of_pieces {p : Path} {before : List (List Char)} {name : String}
    (hpieces : p.pieces = before ++ [name.toList]) (hname : PlainName name) :
    p.fileName = some name := by
  have hne : name.toList ≠ [] := fun heq => hname.ne (toList_eq_nil_iff.mp heq)
  have hreverse : p.pieces.reverse = name.toList :: before.reverse := by simp [hpieces]
  have hdrop : dropEmpty p.pieces.reverse = name.toList :: before.reverse := by
    rw [hreverse]
    cases hbefore : before.reverse with
    | nil => simp [dropEmpty, hne]
    | cons piece rest => simp [dropEmpty, hname.component?]
  simp [fileName, hdrop, hname.component?]

theorem isAbsolute_eq_false {name : String} (h : PlainName name) :
    (Path.mk name).isAbsolute = false := by
  unfold isAbsolute
  cases hname : name.toList with
  | nil => rfl
  | cons c rest =>
      have hc : c ≠ '/' := by
        rintro rfl
        exact h.slash (by simp [hname])
      simp [hc]

theorem join_eq {name : String} (h : PlainName name) (p : Path) :
    ∃ before, (p.join name).pieces = before ++ [name.toList] ∧
      ∃ front, (p.join name).text.toList = front ++ name.toList := by
  have hfields : Text.fields '/' name.toList = [name.toList] := Text.fields_of_not_mem h.slash
  have habsolute := isAbsolute_eq_false h
  unfold join pieces
  rw [habsolute, if_neg Bool.false_ne_true]
  split
  · rename_i hp
    rcases hp with hempty | hslash
    · exact ⟨[], by simp [hempty, hfields], [], by simp [hempty]⟩
    · obtain ⟨front, hfront⟩ := List.getLast?_eq_some_iff.mp hslash
      refine ⟨Text.fields '/' front, ?_, front ++ ['/'], by simp [hfront]⟩
      have hjoin := Text.fields_join '/' front name.toList
      simpa [hfront, hfields] using hjoin
  · refine ⟨Text.fields '/' p.text.toList, ?_, p.text.toList ++ ['/'], by simp⟩
    have hjoin := Text.fields_join '/' p.text.toList name.toList
    simpa [hfields] using hjoin

theorem withFileName_eq {name : String} (h : PlainName name) (p : Path) :
    ∃ before, (p.withFileName name).pieces = before ++ [name.toList] ∧
      ∃ front, (p.withFileName name).text.toList = front ++ name.toList := by
  unfold withFileName
  split
  · exact join_eq h p
  · exact join_eq h _

/-- Such a name stays one with the ending of temporary files. -/
theorem PlainName.temporary {name : String} (h : PlainName name) : PlainName (name ++ ".tmp") := by
  have hlist : (name ++ ".tmp").toList = name.toList ++ ['.', 't', 'm', 'p'] := String.toList_append
  have hlong : 4 ≤ (name ++ ".tmp").toList.length := by simp [hlist]
  refine ⟨fun heq => ?_, fun heq => ?_, fun heq => ?_, by simp [hlist, h.slash]⟩
  all_goals
    rw [heq] at hlong
    exact absurd hlong (by decide)

/-- Pieces that stand for no component. -/
def Idle (pieces : List (List Char)) : Prop :=
  ∀ piece ∈ pieces, piece = [] ∨ piece = ['.']

theorem idle_of_component? {piece : List Char} (h : component? false piece = none) :
    piece = [] ∨ piece = ['.'] := by
  unfold component? at h
  split at h
  · exact .inl ‹_›
  · split at h
    · exact .inr ‹_›
    · split at h <;> cases h

/-- Only idle pieces are dropped, and what is kept does not begin with an empty one. Not all are
dropped if the last one is not empty. -/
theorem dropEmpty_eq (pieces : List (List Char)) : ∃ dropped, pieces = dropped ++ dropEmpty pieces ∧
    Idle dropped ∧ (dropEmpty pieces).head? ≠ some [] ∧
      (dropEmpty pieces = [] → ∀ piece ∈ pieces.getLast?, piece = []) := by
  fun_induction dropEmpty pieces with
  | case1 => exact ⟨[], rfl, by simp [Idle], by simp, by simp⟩
  | case2 => exact ⟨[[]], rfl, by simp [Idle], by simp, by simp⟩
  | case3 first hfirst => exact ⟨[], rfl, by simp [Idle], by simpa using hfirst, by simp⟩
  | case4 piece rest hmore hpiece ih =>
      obtain ⟨dropped, hrest, hidle, hhead, hlast⟩ := ih
      refine ⟨piece :: dropped, congrArg _ hrest, ?_, hhead, fun hnil => ?_⟩
      · exact List.forall_mem_cons.mpr ⟨idle_of_component? hpiece, hidle⟩
      · rw [List.getLast?_cons_of_ne_nil hmore]
        exact hlast hnil
  | case5 piece rest _ hpiece =>
      refine ⟨[], rfl, by simp [Idle], fun hhead => hpiece ?_, by simp⟩
      rw [Option.some.inj hhead]
      rfl

/-- The parent of a path with a last name has the pieces before it, as far as they are not idle. If
all of them are, the path does not begin with a name or a dot. -/
theorem parent_of_pieces {p : Path} {before : List (List Char)} {name : String}
    (hpieces : p.pieces = before ++ [name.toList]) (hname : PlainName name) :
    ∃ kept idle, before = kept ++ idle ∧ Idle idle ∧ kept.getLast? ≠ some [] ∧
      (kept = [] → ∀ piece ∈ before.head?, piece = []) ∧
      p.parent = some (if kept = [] then ⟨if p.isAbsolute then "/" else ""⟩ else ofPieces kept) := by
  have hne : name.toList ≠ [] := fun heq => hname.ne (toList_eq_nil_iff.mp heq)
  have hdrop : dropEmpty p.pieces.reverse = name.toList :: before.reverse := by
    rw [hpieces, List.reverse_append]
    cases hbefore : before.reverse with
    | nil => simp [dropEmpty, hne]
    | cons piece rest => simp [dropEmpty, hname.component?]
  obtain ⟨dropped, hrest, hidle, hhead, hlast⟩ := dropEmpty_eq before.reverse
  refine ⟨(dropEmpty before.reverse).reverse, dropped.reverse, ?_, ?_, ?_, ?_, ?_⟩
  · rw [← List.reverse_append, ← hrest, List.reverse_reverse]
  · exact fun piece hpiece => hidle piece (List.mem_reverse.mp hpiece)
  · rwa [List.getLast?_reverse]
  · rwa [List.reverse_eq_nil_iff, ← List.getLast?_reverse]
  · rw [parent, hdrop]
    dsimp only
    cases dropEmpty before.reverse with
    | nil => simp
    | cons piece rest => simp

end Path

namespace Storage

theorem stepsOf_eq {p : Path} {before : List (List Char)} {name : String}
    (hpieces : p.pieces = before ++ [name.toList]) (hne : name ≠ "") :
    ∃ init, stepsOf p.text = init ++ [name] := by
  have hlist : name.toList ≠ [] := fun heq => hne (Path.toList_eq_nil_iff.mp heq)
  refine ⟨(before.filter (· ≠ [])).map String.ofList, ?_⟩
  unfold Path.pieces at hpieces
  simp [stepsOf, hpieces, hlist]

theorem endsInSlash_eq_false {text : String} {front : List Char} {name : String}
    (htext : text.toList = front ++ name.toList) (h : Path.PlainName name) :
    endsInSlash text = false := by
  unfold endsInSlash
  rw [htext, List.getLast?_append]
  cases hlast : name.toList.getLast? with
  | none =>
      have hnil := List.getLast?_eq_none_iff.mp hlast
      exact absurd (Path.toList_eq_nil_iff.mp hnil) h.ne
  | some c =>
      have hc : c ≠ '/' := by
        rintro rfl
        exact h.slash (List.mem_of_getLast? hlast)
      simp [hc]

theorem exists_pieces {p : Path} {name : String} (hslash : endsInSlash p.text = false)
    (hlast : (stepsOf p.text).getLast? = some name) :
    ∃ before, p.pieces = before ++ [name.toList] ∧ name ≠ "" ∧ '/' ∉ name.toList := by
  have hne : p.text.toList ≠ [] := by
    intro hnil
    simp [stepsOf, hnil, Text.fields] at hlast
  have hend : p.text.toList.getLast? ≠ some '/' := by
    intro heq
    simp [endsInSlash, heq] at hslash
  obtain ⟨before, piece, hpieces, hpiece⟩ := Text.exists_last_piece hne hend
  have hname : name = String.ofList piece := by
    simpa [stepsOf, hpieces, hpiece, eq_comm] using hlast
  subst hname
  refine ⟨before, by simpa [Path.pieces] using hpieces, ?_, ?_⟩
  · intro heq
    exact hpiece (by simpa using congrArg String.toList heq)
  · have hmem : piece ∈ Text.fields '/' p.text.toList := by simp [hpieces]
    simpa using Text.not_mem_of_mem_fields hmem

theorem stepsOf_join {name : String} (hname : Path.PlainName name) (p : Path) :
    stepsOf (p.join name).text = stepsOf p.text ++ [name] := by
  have hne : name.toList ≠ [] := fun heq => hname.ne (Path.toList_eq_nil_iff.mp heq)
  have hfields : Text.fields '/' name.toList = [name.toList] := Text.fields_of_not_mem hname.slash
  unfold Path.join
  rw [Path.isAbsolute_eq_false hname, if_neg Bool.false_ne_true]
  split
  · rename_i hp
    rcases hp with hempty | hslash
    · simp [stepsOf, hempty, Text.fields, hfields, hne]
    · obtain ⟨front, hfront⟩ := List.getLast?_eq_some_iff.mp hslash
      have hjoin := Text.fields_join '/' front name.toList
      have hend := Text.fields_join '/' front []
      simp [stepsOf, hfront, hjoin, hend, hfields, hne, Text.fields]
  · have hjoin := Text.fields_join '/' p.text.toList name.toList
    simp [stepsOf, hjoin, hfields, hne]

theorem startOf_join {name : String} (hname : Path.PlainName name) (p : Path) (base : Address) :
    startOf base (p.join name).text = startOf base p.text := by
  have habsolute := Path.isAbsolute_eq_false hname
  unfold Path.join
  rw [habsolute, if_neg Bool.false_ne_true]
  cases hp : p.text.toList with
  | nil =>
      have hempty : p.text = "" := Path.toList_eq_nil_iff.mp hp
      rw [if_pos (.inl hempty)]
      have hhead : name.toList.head? ≠ some '/' := by simpa [Path.isAbsolute] using habsolute
      simp [startOf, hempty, hhead]
  | cons c rest => split <;> simp [startOf, hp]

theorem stepsOf_ofPieces {kept : List (List Char)} (hne : kept ≠ [])
    (h : ∀ piece ∈ kept, '/' ∉ piece) :
    stepsOf (Path.ofPieces kept).text = (kept.filter (· ≠ [])).map String.ofList := by
  simp [stepsOf, Path.ofPieces, Text.fields_intercalate hne h]

/-- A path begins where its parent begins. -/
theorem startOf_parent {path : Path} {kept rest : List (List Char)}
    (hpieces : path.pieces = kept ++ rest) (hend : kept.getLast? ≠ some []) (base : Address) :
    startOf base (if kept = [] then ⟨if path.isAbsolute then "/" else ""⟩
      else Path.ofPieces kept : Path).text = startOf base path.text := by
  cases kept with
  | nil =>
      by_cases habsolute : path.text.toList.head? = some '/' <;>
        simp [startOf, Path.isAbsolute, habsolute]
  | cons first more =>
      have hnone : ∀ piece ∈ first :: more, '/' ∉ piece := by
        intro piece hpiece
        refine Text.not_mem_of_mem_fields (s := path.text.toList) ?_
        rw [show Text.fields '/' path.text.toList = _ from hpieces]
        exact List.mem_append_left _ hpiece
      have hhead : (Path.ofPieces (first :: more)).text.toList.head? = some '/' ↔
          path.text.toList.head? = some '/' := by
        have hkept : Text.fields '/' (Path.ofPieces (first :: more)).text.toList = first :: more := by
          simpa [Path.ofPieces] using Text.fields_intercalate (by simp) hnone
        unfold Path.pieces at hpieces
        rw [Text.head?_eq_sep_iff, Text.head?_eq_sep_iff, hkept, hpieces]
        cases more with
        | nil =>
            have hfirst : first ≠ [] := by simpa using hend
            simp [hfirst]
        | cons second others => simp
      rw [if_neg (by simp)]
      simp only [startOf, hhead]

/-- The parent of a path leads the way of the path without its last name, single dots aside. -/
theorem parent_way {path : Path} {before : List (List Char)} {name : String}
    (hpieces : path.pieces = before ++ [name.toList]) (hname : Path.PlainName name) :
    ∃ parent dots, path.parent = some parent ∧
      stepsOf path.text = stepsOf parent.text ++ dots ++ [name] ∧ (∀ dot ∈ dots, dot = ".") ∧
      (∀ base, startOf base parent.text = startOf base path.text) ∧
      (before ≠ [] → parent.text ≠ "") := by
  obtain ⟨kept, idle, rfl, hidle, hend, hall, hparent⟩ := Path.parent_of_pieces hpieces hname
  have hnone : ∀ piece ∈ kept, '/' ∉ piece := by
    intro piece hpiece
    refine Text.not_mem_of_mem_fields (s := path.text.toList) ?_
    rw [show Text.fields '/' path.text.toList = _ from hpieces]
    simp [hpiece]
  have hsteps : stepsOf (if kept = [] then ⟨if path.isAbsolute then "/" else ""⟩
      else Path.ofPieces kept : Path).text = (kept.filter (· ≠ [])).map String.ofList := by
    split
    · rename_i hnil
      split <;> simp [stepsOf, Text.fields, hnil]
    · rename_i hsome
      exact stepsOf_ofPieces hsome hnone
  refine ⟨_, (idle.filter (· ≠ [])).map String.ofList, hparent, ?_, ?_, fun base => ?_,
    fun hbefore hempty => ?_⟩
  · rw [hsteps]
    unfold Path.pieces at hpieces
    simp [stepsOf, hpieces, hname.ne]
  · intro dot hdot
    obtain ⟨piece, hpiece, rfl⟩ := List.mem_map.mp hdot
    obtain ⟨hmem, hfull⟩ := List.mem_filter.mp hpiece
    rw [(hidle piece hmem).resolve_left (by simpa using hfull)]
  · rw [List.append_assoc] at hpieces
    exact startOf_parent hpieces hend base
  · by_cases hnil : kept = []
    · -- Then the first of the idle pieces is empty, and the path is absolute.
      obtain ⟨first, rest, hfirst⟩ := List.exists_cons_of_ne_nil hbefore
      have hroot : first = [] := hall hnil first (by simp [hfirst])
      have habsolute : path.text.toList.head? = some '/' := by
        refine Text.head?_eq_sep_iff.mpr ⟨rest ++ [name.toList], by simp, ?_⟩
        rw [show Text.fields '/' path.text.toList = _ from hpieces, hfirst, hroot]
        rfl
      simp [hnil, Path.isAbsolute, habsolute] at hempty
    · rw [hempty] at hsteps
      have hnames : kept.filter (· ≠ []) = [] := List.map_eq_nil_iff.mp hsteps.symm
      refine hend ((List.getLast?_eq_some_getLast hnil).trans (congrArg some ?_))
      simpa using List.filter_eq_nil_iff.mp hnames _ (List.getLast_mem hnil)

/-- The file beside a path stands in the parent, which the path without its last name leads to. -/
theorem exists_parent {path : Path} {last : String} (hslash : endsInSlash path.text = false)
    (hlast : (stepsOf path.text).getLast? = some last) (hdots : isDots last = false) :
    ∃ parent dots, path.parent = some parent ∧
      stepsOf path.text = stepsOf parent.text ++ dots ++ [last] ∧ (∀ dot ∈ dots, dot = ".") ∧
      (∀ base, startOf base parent.text = startOf base path.text) ∧
      Tree.temporary path = parent.join (last ++ ".tmp") ∧ Path.PlainName (last ++ ".tmp") := by
  obtain ⟨before, hpieces, hne, hfree⟩ := exists_pieces hslash hlast
  simp only [isDots, Bool.or_eq_false_iff, beq_eq_false_iff_ne] at hdots
  have hplain : Path.PlainName last := ⟨hne, hdots.1, hdots.2, hfree⟩
  obtain ⟨parent, dots, hparent, hsteps, hidle, hstart, -⟩ := parent_way hpieces hplain
  refine ⟨parent, dots, hparent, hsteps, hidle, hstart, ?_, hplain.temporary⟩
  rw [Tree.temporary, Path.fileName_of_pieces hpieces hplain, Option.getD_some, Path.withFileName,
    Path.fileName_of_pieces hpieces hplain, hparent, Option.getD_some]

/-- The file beside a path has the same way to it, single dots aside. -/
theorem temporary_way {path : Path} {last : String} (hslash : endsInSlash path.text = false)
    (hlast : (stepsOf path.text).getLast? = some last) (hdots : isDots last = false) :
    ∃ init dots, stepsOf path.text = init ++ dots ++ [last] ∧ (∀ dot ∈ dots, dot = ".") ∧
      stepsOf (Tree.temporary path).text = init ++ [last ++ ".tmp"] ∧
      ∀ base, startOf base (Tree.temporary path).text = startOf base path.text := by
  obtain ⟨parent, dots, -, hsteps, hidle, hstart, hbeside, hmore⟩ :=
    exists_parent hslash hlast hdots
  refine ⟨stepsOf parent.text, dots, hsteps, hidle, ?_, fun base => ?_⟩
  · rw [hbeside, stepsOf_join hmore]
  · rw [hbeside, startOf_join hmore, hstart]

end Storage

end PluginHost
