import PluginHost.Json.Decode
import PluginHost.Proofs.Json.Tokens

/-!
Documents as text, read back. Each value ends where a comma or a new line follows, and reading it
takes at most three times as many steps as it has characters.
-/

namespace PluginHost.Json

/-- A document that no text was cut short for, with proper numerals. -/
inductive Document.Whole : Document → Prop
  | null : Whole .null
  | bool (value : Bool) : Whole (.bool value)
  | number {n : Numeral} (hproper : n.Proper) : Whole (.number n)
  | string (value : String) : Whole (.string (Str.of value))
  | array {items : List Document} (hitems : ∀ item ∈ items, Whole item) :
      Whole (.array items .closed)
  | object {members : List (Str × Document)} (hkeys : ∀ member ∈ members, member.1.paired = true)
      (hvalues : ∀ member ∈ members, Whole member.2) : Whole (.object members .closed)

/-- What may follow a value. -/
def Stops (rest : List Char) : Prop :=
  ∀ c, rest.head? = some c → c = ',' ∨ c = '\n'

theorem Stops.endsNumeral {rest : List Char} (h : Stops rest) : EndsNumeral rest := by
  intro c hc
  rcases h c hc with rfl | rfl <;> decide

/-- What a value or the quote of a key may begin with. -/
def Begins (c : Char) : Prop :=
  isSpace c = false ∧ c ≠ ']' ∧ c ≠ '\x7d'

theorem skipSpace_cons {c : Char} (h : isSpace c = false) (rest : List Char) :
    skipSpace (c :: rest) = c :: rest := by
  simp [skipSpace, h]

theorem skipSpace_newline (level : Nat) (s : List Char) :
    skipSpace (newline level ++ s) = skipSpace s := by
  have hspaces : ∀ c ∈ newline level, isSpace c = true := by
    intro c hc
    rcases List.mem_cons.mp hc with rfl | hc
    · decide
    · rw [List.eq_of_mem_replicate hc]
      decide
  exact List.dropWhile_append_of_pos hspaces

theorem skipSpace_skipSpace (s : List Char) : skipSpace (skipSpace s) = skipSpace s := by
  induction s with
  | nil => rfl
  | cons c s ih =>
      cases hc : isSpace c with
      | true => simpa [skipSpace, hc] using ih
      | false => simp [skipSpace, hc]

theorem readValue_skipSpace (fuel : Nat) (s : List Char) :
    readValue fuel (skipSpace s) = readValue fuel s := by
  cases fuel with
  | zero => rw [readValue, readValue]
  | succ fuel => rw [readValue, readValue, skipSpace_skipSpace]

theorem begins_of_isDigit {c : Char} (h : c.isDigit = true) : Begins c := by
  refine ⟨?_, ?_, ?_⟩
  · cases hspace : isSpace c with
    | false => rfl
    | true =>
        simp only [isSpace, Bool.or_eq_true, beq_iff_eq] at hspace
        rcases hspace with ((rfl | rfl) | rfl) | rfl <;> exact absurd h (by decide)
  · exact ne_of_isDigit h (by decide)
  · exact ne_of_isDigit h (by decide)

theorem enclose_eq_cons (level : Nat) (opening closing : Char) (entries : List (List Char)) :
    ∃ rest, enclose level opening closing entries = opening :: rest := by
  cases entries with
  | nil => exact ⟨_, rfl⟩
  | cons first more => exact ⟨_, rfl⟩

theorem Document.Whole.begins {d : Document} (h : d.Whole) (level : Nat) :
    ∃ c rest, d.print level = c :: rest ∧ Begins c := by
  cases h with
  | null => exact ⟨_, _, by rw [print], by decide, by decide, by decide⟩
  | bool value =>
      cases value <;> exact ⟨_, _, by rw [print]; rfl, by decide, by decide, by decide⟩
  | @number n hproper =>
      rw [print, Numeral.print_eq]
      cases n.negative with
      | true => exact ⟨_, _, rfl, by decide, by decide, by decide⟩
      | false =>
          cases hwhole : n.whole with
          | nil => exact absurd hwhole hproper.whole
          | cons c more =>
              refine ⟨c, _, rfl, begins_of_isDigit (hproper.wholeDigits c ?_)⟩
              rw [hwhole]
              exact List.mem_cons_self
  | string value => exact ⟨_, _, by rw [print, quote]; rfl, by decide, by decide, by decide⟩
  | array hitems =>
      rw [print]
      obtain ⟨rest, hrest⟩ := enclose_eq_cons level '[' ']' (printItems (level + 1) _)
      exact ⟨_, _, hrest, by decide, by decide, by decide⟩
  | object hkeys hvalues =>
      rw [print]
      obtain ⟨rest, hrest⟩ := enclose_eq_cons level '\x7b' '\x7d' (printMembers (level + 1) _)
      exact ⟨_, _, hrest, by decide, by decide, by decide⟩

/-! Scalars. -/

theorem readValue_scalar {c : Char} {s : List Char} (hspace : isSpace c = false)
    (harray : c ≠ '[') (hobject : c ≠ '\x7b') {d : Document} {rest : List Char}
    (h : scalar? (c :: s) = some (d, rest)) (fuel : Nat) :
    readValue (fuel + 1) (c :: s) = (d, some rest) := by
  rw [readValue, skipSpace_cons hspace]
  split
  · rename_i heq
    exact absurd (List.cons.inj heq).1 harray
  · rename_i heq
    exact absurd (List.cons.inj heq).1 hobject
  · rw [h]

theorem after?_append (word rest : List Char) : after? word (word ++ rest) = some rest := by
  simp [after?]

theorem scalar?_string (value : String) (rest : List Char) :
    scalar? (quote value ++ rest) = some (.string (Str.of value), rest) := by
  have hquote : quote value ++ rest =
      '"' :: (value.toList.flatMap escapeChar ++ '"' :: rest) := by
    simp [quote]
  rw [hquote, scalar?, string?_quote]
  rfl

theorem scalar?_number {n : Numeral} (hproper : n.Proper) {rest : List Char}
    (hrest : EndsNumeral rest) : scalar? (n.print ++ rest) = some (.number n, rest) := by
  have hread := numeral?_append hproper hrest
  rw [Numeral.print_eq]
  cases hnegative : n.negative with
  | true =>
      rw [hnegative] at hread
      simp only [if_true, List.cons_append, List.nil_append, List.append_assoc, scalar?, hread,
        Option.map_some]
  | false =>
      rw [hnegative] at hread
      cases hwhole : n.whole with
      | nil => exact absurd hwhole hproper.whole
      | cons c more =>
          have hdigit : c.isDigit = true := hproper.wholeDigits c (by simp [hwhole])
          have hne : ∀ (other : Char) (s : List Char), other.isDigit = false →
              ∀ t, c :: s = other :: t → False :=
            fun other s hother t heq => ne_of_isDigit hdigit hother (List.cons.inj heq).1
          rw [hwhole] at hread
          simp only [Bool.false_eq_true, if_false, List.nil_append, List.append_assoc] at hread ⊢
          rw [List.cons_append] at hread ⊢
          rw [scalar?, hread, Option.map_some]
          · exact hne '"' _ (by decide)
          · exact hne '-' _ (by decide)
          · exact hne 'n' _ (by decide)
          · exact hne 't' _ (by decide)
          · exact hne 'f' _ (by decide)

/-- A value is read back from its text, if enough steps are allowed. -/
def Document.Reads (d : Document) : Prop :=
  ∀ level fuel rest, Stops rest → 3 * (d.print level).length ≤ fuel →
    readValue fuel (d.print level ++ rest) = (d, some rest)

theorem Document.Whole.fuel_pos {d : Document} (h : d.Whole) {level fuel : Nat}
    (hfuel : 3 * (d.print level).length ≤ fuel) : ∃ more, fuel = more + 1 := by
  obtain ⟨c, rest, hprint, -⟩ := h.begins level
  rw [hprint, List.length_cons] at hfuel
  exact ⟨fuel - 1, by omega⟩

/-! Containers. -/

/-- The entries after the first one, up to the closing bracket. -/
def later (level : Nat) (closing : Char) (entries : List (List Char)) : List Char :=
  entries.flatMap (fun entry => ',' :: newline (level + 1) ++ entry) ++ newline level ++ [closing]

theorem enclose_cons (level : Nat) (opening closing : Char) (first : List Char)
    (more : List (List Char)) :
    enclose level opening closing (first :: more) =
      opening :: (newline (level + 1) ++ (first ++ later level closing more)) := by
  simp [enclose, later]

theorem later_cons (level : Nat) (closing : Char) (entry : List Char) (more : List (List Char)) :
    later level closing (entry :: more) =
      ',' :: (newline (level + 1) ++ (entry ++ later level closing more)) := by
  simp [later]

theorem stops_later (level : Nat) (closing : Char) (entries : List (List Char))
    (rest : List Char) : Stops (later level closing entries ++ rest) := by
  intro c hc
  cases entries with
  | nil =>
      cases hc
      exact .inr rfl
  | cons entry more =>
      rw [later_cons] at hc
      cases hc
      exact .inl rfl

theorem skipSpace_entry {c : Char} (hspace : isSpace c = false) (level : Nat)
    (more rest : List Char) :
    skipSpace (newline level ++ (c :: (more ++ rest))) = c :: (more ++ rest) := by
  rw [skipSpace_newline, skipSpace_cons hspace]

theorem readItems_first {after : List Char} {c : Char} {s : List Char}
    (hskip : skipSpace after = c :: s) (hc : Begins c) (fuel : Nat) :
    readItems (fuel + 1) true after = readItem fuel (c :: s) := by
  obtain ⟨-, hbracket, -⟩ := hc
  unfold readItems
  rw [hskip]
  split
  · rename_i heq
    exact absurd (List.cons.inj heq).1 hbracket
  · rfl
  · rename_i hfirst _
    cases hfirst
  · rename_i hfirst _ _
    cases hfirst

theorem readItems_comma {after : List Char} {c : Char} {s : List Char}
    (hskip : skipSpace after = c :: s) (hc : Begins c) (fuel : Nat) :
    readItems (fuel + 1) false (',' :: after) = readItem fuel (c :: s) := by
  obtain ⟨-, hbracket, -⟩ := hc
  unfold readItems
  rw [skipSpace_cons (by decide)]
  simp only [hskip]
  split
  · rename_i heq
    exact absurd (List.cons.inj heq).1 hbracket
  · rfl

theorem readItems_close {after : List Char} {rest : List Char}
    (hskip : skipSpace after = ']' :: rest) (first : Bool) (fuel : Nat) :
    readItems (fuel + 1) first after = ([], .closed, some rest) := by
  unfold readItems
  simp only [hskip]

theorem skipSpace_close (level : Nat) {closing : Char} (hspace : isSpace closing = false)
    (rest : List Char) : skipSpace (later level closing [] ++ rest) = closing :: rest := by
  simp only [later, List.flatMap_nil, List.nil_append, List.append_assoc, skipSpace_newline,
    List.cons_append]
  exact skipSpace_cons hspace rest

theorem readItem_append {item : Document} (hreads : item.Reads) {level fuel : Nat}
    (hfuel : 3 * (item.print level).length ≤ fuel) {rest : List Char} (hrest : Stops rest)
    {items : List Document} {ending : Ending} {left : Option (List Char)}
    (hitems : readItems fuel false rest = (items, ending, left)) :
    readItem (fuel + 1) (item.print level ++ rest) = (item :: items, ending, left) := by
  unfold readItem
  simp only [hreads level fuel rest hrest hfuel, hitems]

theorem readItems_later {items : List Document} (hwhole : ∀ item ∈ items, item.Whole)
    (hreads : ∀ item ∈ items, item.Reads) {level fuel : Nat}
    (hfuel : 3 * (later level ']' (printItems (level + 1) items)).length ≤ fuel)
    (rest : List Char) :
    readItems fuel false (later level ']' (printItems (level + 1) items) ++ rest) =
      (items, .closed, some rest) := by
  induction items generalizing fuel with
  | nil =>
      obtain ⟨more, rfl⟩ : ∃ more, fuel = more + 1 := ⟨fuel - 1, by simp [later] at hfuel; omega⟩
      exact readItems_close (skipSpace_close level (by decide) rest) false more
  | cons item items ih =>
      obtain ⟨hitem, hitems⟩ := List.forall_mem_cons.mp hwhole
      obtain ⟨hfirst, hothers⟩ := List.forall_mem_cons.mp hreads
      obtain ⟨c, more, hprint, hc⟩ := hitem.begins (level + 1)
      rw [printItems, later_cons] at hfuel ⊢
      simp only [List.length_cons, List.length_append] at hfuel
      obtain ⟨fuel, rfl⟩ : ∃ more, fuel = more + 2 := ⟨fuel - 2, by omega⟩
      have hlength : 3 * (item.print (level + 1)).length ≤ fuel := by omega
      have hread := readItem_append hfirst hlength (stops_later level ']' _ rest)
        (ih hitems hothers (by omega))
      have hskip := skipSpace_entry hc.1 (level + 1) more
        (later level ']' (printItems (level + 1) items) ++ rest)
      rw [hprint, List.cons_append] at hread
      simp only [List.cons_append, List.append_assoc, hprint]
      rw [readItems_comma hskip hc, hread]

theorem Document.reads_array {items : List Document} (hwhole : ∀ item ∈ items, item.Whole)
    (hreads : ∀ item ∈ items, item.Reads) : (Document.array items .closed).Reads := by
  intro level fuel rest hrest hfuel
  rw [print] at hfuel ⊢
  cases items with
  | nil =>
      obtain ⟨fuel, rfl⟩ : ∃ more, fuel = more + 2 := by
        refine ⟨fuel - 2, ?_⟩
        simp [printItems, enclose] at hfuel
        omega
      have hclose : readItems (fuel + 1) true (']' :: rest) = ([], .closed, some rest) :=
        readItems_close (skipSpace_cons (by decide) rest) true fuel
      simp only [printItems, enclose, List.cons_append, List.nil_append]
      rw [readValue, skipSpace_cons (by decide)]
      simp only [hclose]
  | cons item items =>
      obtain ⟨hitem, hitems⟩ := List.forall_mem_cons.mp hwhole
      obtain ⟨hfirst, hothers⟩ := List.forall_mem_cons.mp hreads
      obtain ⟨c, more, hprint, hc⟩ := hitem.begins (level + 1)
      rw [printItems, enclose_cons] at hfuel ⊢
      simp only [List.length_cons, List.length_append] at hfuel
      obtain ⟨fuel, rfl⟩ : ∃ more, fuel = more + 3 := ⟨fuel - 3, by omega⟩
      have hlength : 3 * (item.print (level + 1)).length ≤ fuel := by omega
      have hread := readItem_append hfirst hlength (stops_later level ']' _ rest)
        (readItems_later hitems hothers (by omega) rest)
      have hskip := skipSpace_entry hc.1 (level + 1) more
        (later level ']' (printItems (level + 1) items) ++ rest)
      rw [hprint, List.cons_append] at hread
      simp only [List.cons_append, List.append_assoc, hprint]
      rw [readValue, skipSpace_cons (by decide)]
      simp only [readItems_first hskip hc, hread]

/-! Objects. -/

/-- A member as text, after the first quote. -/
def memberTail (level : Nat) (key : Str) (value : Document) : List Char :=
  key.value.toList.flatMap escapeChar ++ '"' :: ':' :: ' ' :: value.print level

theorem printMembers_cons (level : Nat) (key : Str) (value : Document)
    (members : List (Str × Document)) :
    printMembers level ((key, value) :: members) =
      ('"' :: memberTail level key value) :: printMembers level members := by
  simp [printMembers, quote, memberTail]

theorem length_memberTail (level : Nat) (key : Str) (value : Document) :
    (value.print level).length ≤ (memberTail level key value).length := by
  simp only [memberTail, List.length_append, List.length_cons]
  omega

theorem readMember_append {key : Str} (hkey : key.paired = true) {value : Document}
    (hreads : value.Reads) {level fuel : Nat} (hfuel : 3 * (value.print level).length ≤ fuel)
    {rest : List Char} (hrest : Stops rest) {members : List (Str × Document)} {ending : Ending}
    {left : Option (List Char)} (hmembers : readMembers fuel false rest = (members, ending, left)) :
    readMember (fuel + 1) ('"' :: (memberTail level key value ++ rest)) =
      ((key, value) :: members, ending, left) := by
  have hvalue : readValue fuel (' ' :: (value.print level ++ rest)) = (value, some rest) := by
    rw [← readValue_skipSpace]
    have hskip : skipSpace (' ' :: (value.print level ++ rest)) =
        skipSpace (value.print level ++ rest) := rfl
    rw [hskip, readValue_skipSpace]
    exact hreads level fuel rest hrest hfuel
  have hstr : Str.of key.value = key := by
    cases key
    cases hkey
    rfl
  have hcolon : skipSpace (':' :: ' ' :: (value.print level ++ rest)) =
      ':' :: ' ' :: (value.print level ++ rest) := skipSpace_cons (by decide) _
  unfold readMember memberTail
  simp only [List.cons_append, List.append_assoc, string?_quote, hcolon, hvalue, hmembers, hstr]

theorem readMembers_first {after : List Char} {s : List Char} (hskip : skipSpace after = '"' :: s)
    (fuel : Nat) : readMembers (fuel + 1) true after = readMember fuel ('"' :: s) := by
  unfold readMembers
  rw [hskip]
  rfl

theorem readMembers_comma {after : List Char} {s : List Char} (hskip : skipSpace after = '"' :: s)
    (fuel : Nat) : readMembers (fuel + 1) false (',' :: after) = readMember fuel ('"' :: s) := by
  unfold readMembers
  rw [skipSpace_cons (by decide)]
  simp only [hskip]

theorem readMembers_close {after : List Char} {rest : List Char}
    (hskip : skipSpace after = '\x7d' :: rest) (first : Bool) (fuel : Nat) :
    readMembers (fuel + 1) first after = ([], .closed, some rest) := by
  unfold readMembers
  simp only [hskip]

theorem readMembers_later {members : List (Str × Document)}
    (hkeys : ∀ member ∈ members, member.1.paired = true)
    (hreads : ∀ member ∈ members, member.2.Reads) {level fuel : Nat}
    (hfuel : 3 * (later level '\x7d' (printMembers (level + 1) members)).length ≤ fuel)
    (rest : List Char) :
    readMembers fuel false (later level '\x7d' (printMembers (level + 1) members) ++ rest) =
      (members, .closed, some rest) := by
  induction members generalizing fuel with
  | nil =>
      obtain ⟨more, rfl⟩ : ∃ more, fuel = more + 1 := ⟨fuel - 1, by simp [later] at hfuel; omega⟩
      exact readMembers_close (skipSpace_close level (by decide) rest) false more
  | cons member members ih =>
      obtain ⟨key, value⟩ := member
      obtain ⟨hkey, hothers⟩ := List.forall_mem_cons.mp hkeys
      obtain ⟨hfirst, hmore⟩ := List.forall_mem_cons.mp hreads
      rw [printMembers_cons, later_cons] at hfuel ⊢
      simp only [List.length_cons, List.length_append] at hfuel
      obtain ⟨fuel, rfl⟩ : ∃ more, fuel = more + 2 := ⟨fuel - 2, by omega⟩
      have hlength : 3 * (value.print (level + 1)).length ≤ fuel := by
        have htail := length_memberTail (level + 1) key value
        omega
      have hread := readMember_append hkey hfirst hlength (stops_later level '\x7d' _ rest)
        (ih hothers hmore (by omega))
      have hskip := skipSpace_entry (by decide : isSpace '"' = false) (level + 1)
        (memberTail (level + 1) key value)
        (later level '\x7d' (printMembers (level + 1) members) ++ rest)
      simp only [List.cons_append, List.append_assoc]
      rw [readMembers_comma hskip, hread]

theorem Document.reads_object {members : List (Str × Document)}
    (hkeys : ∀ member ∈ members, member.1.paired = true)
    (hreads : ∀ member ∈ members, member.2.Reads) : (Document.object members .closed).Reads := by
  intro level fuel rest hrest hfuel
  rw [print] at hfuel ⊢
  cases members with
  | nil =>
      obtain ⟨fuel, rfl⟩ : ∃ more, fuel = more + 2 := by
        refine ⟨fuel - 2, ?_⟩
        simp [printMembers, enclose] at hfuel
        omega
      have hclose : readMembers (fuel + 1) true ('\x7d' :: rest) = ([], .closed, some rest) :=
        readMembers_close (skipSpace_cons (by decide) rest) true fuel
      simp only [printMembers, enclose, List.cons_append, List.nil_append]
      rw [readValue, skipSpace_cons (by decide)]
      simp only [hclose]
  | cons member members =>
      obtain ⟨key, value⟩ := member
      obtain ⟨hkey, hothers⟩ := List.forall_mem_cons.mp hkeys
      obtain ⟨hfirst, hmore⟩ := List.forall_mem_cons.mp hreads
      rw [printMembers_cons, enclose_cons] at hfuel ⊢
      simp only [List.length_cons, List.length_append] at hfuel
      obtain ⟨fuel, rfl⟩ : ∃ more, fuel = more + 3 := ⟨fuel - 3, by omega⟩
      have hlength : 3 * (value.print (level + 1)).length ≤ fuel := by
        have htail := length_memberTail (level + 1) key value
        omega
      have hread := readMember_append hkey hfirst hlength (stops_later level '\x7d' _ rest)
        (readMembers_later hothers hmore (by omega) rest)
      have hskip := skipSpace_entry (by decide : isSpace '"' = false) (level + 1)
        (memberTail (level + 1) key value)
        (later level '\x7d' (printMembers (level + 1) members) ++ rest)
      simp only [List.cons_append, List.append_assoc]
      rw [readValue, skipSpace_cons (by decide)]
      simp only [readMembers_first hskip, hread]

theorem Document.reads_scalar {d : Document} (h : d.Whole) (hread : ∀ level rest, Stops rest →
      scalar? (d.print level ++ rest) = some (d, rest))
    (hfirst : ∀ level c rest, d.print level = c :: rest → c ≠ '[' ∧ c ≠ '\x7b') : d.Reads := by
  intro level fuel rest hrest hfuel
  obtain ⟨c, more, hprint, hspace, -⟩ := h.begins level
  obtain ⟨fuel, rfl⟩ := h.fuel_pos hfuel
  obtain ⟨harray, hobject⟩ := hfirst level c more hprint
  have hscalar := hread level rest hrest
  rw [hprint, List.cons_append] at hscalar ⊢
  exact readValue_scalar hspace harray hobject hscalar fuel

/-- A whole document is read back from its text, whatever value or space comes after it. -/
theorem Document.Whole.reads {d : Document} (h : d.Whole) : d.Reads := by
  induction h with
  | null =>
      refine reads_scalar .null (fun level rest _ => ?_) fun level c rest hc => ?_
      · rw [print]
        exact congrArg (Option.map _) (after?_append ['u', 'l', 'l'] rest)
      · rw [print] at hc
        cases hc
        decide
  | bool value =>
      refine reads_scalar (.bool value) (fun level rest _ => ?_) fun level c rest hc => ?_
      · rw [print]
        cases value with
        | true => exact congrArg (Option.map _) (after?_append ['r', 'u', 'e'] rest)
        | false => exact congrArg (Option.map _) (after?_append ['a', 'l', 's', 'e'] rest)
      · rw [print] at hc
        cases value with
        | true =>
            cases hc
            decide
        | false =>
            cases hc
            decide
  | @number n hproper =>
      refine reads_scalar (.number hproper) (fun level rest hrest => ?_) fun level c rest hc => ?_
      · rw [print]
        exact scalar?_number hproper hrest.endsNumeral
      · rw [print, Numeral.print_eq] at hc
        cases hnegative : n.negative with
        | true =>
            rw [hnegative] at hc
            cases hc
            decide
        | false =>
            have hdigit : c.isDigit = true := by
              refine hproper.wholeDigits c (List.mem_of_mem_head? ?_)
              cases hwhole : n.whole with
              | nil => exact absurd hwhole hproper.whole
              | cons first more =>
                  rw [hnegative, hwhole] at hc
                  exact congrArg some (List.cons.inj hc).1
            exact ⟨ne_of_isDigit hdigit (by decide), ne_of_isDigit hdigit (by decide)⟩
  | string value =>
      refine reads_scalar (.string value) (fun level rest _ => ?_) fun level c rest hc => ?_
      · rw [print]
        exact scalar?_string value rest
      · rw [print] at hc
        cases hc
        decide
  | array hitems ih => exact reads_array hitems ih
  | object hkeys hvalues ih => exact reads_object hkeys ih

theorem Source.ofString_text {d : Document} (h : d.Whole) : Source.ofString d.text = ⟨d, true⟩ := by
  have hstops : Stops [] := fun c hc => by cases hc
  have hread := h.reads 0 (4 * (d.print 0).length + 4) [] hstops (by omega)
  rw [List.append_nil] at hread
  simp only [ofString, Document.text, String.toList_ofList, hread]
  rfl

theorem decodeText_text {α : Type} {d : Document} (h : d.Whole) (decode : Decoder α) :
    decodeText decode d.text = decode d := by
  unfold decodeText
  rw [Source.ofString_text h]
  dsimp only
  cases decode d <;> rfl

end PluginHost.Json
