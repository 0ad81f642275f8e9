import PluginHost.Text.Ascii
import PluginHost.Text.Blank
import PluginHost.Text.Hex
import PluginHost.Text.Split

/-!
Taking texts apart and putting them together: trimming is idempotent, joining pieces with a
separator that they lack is undone by cutting there, and hexadecimal digits are read back as the
octets that they write. Texts are in order when their octets are.
-/

namespace PluginHost.Text

/-! Blanks at the ends. -/

theorem isBlank_of_between {c : Char} (hlow : 0x20 < c.toNat) (hhigh : c.toNat < 0x85) :
    isBlank c = false := by
  simp only [isBlank, Bool.or_eq_false_iff, Bool.and_eq_false_iff, decide_eq_false_iff_not,
    beq_eq_false_iff_ne]
  omega

theorem isBlank_of_isDigit {c : Char} (h : c.isDigit = true) : isBlank c = false := by
  simp only [Char.isDigit, Bool.and_eq_true, decide_eq_true_eq, ge_iff_le,
    UInt32.le_iff_toNat_le] at h
  change 48 ≤ c.toNat ∧ c.toNat ≤ 57 at h
  exact isBlank_of_between (by omega) (by omega)

theorem trimStart_eq_self {s : List Char} (h : ∀ c, s.head? = some c → isBlank c = false) :
    trimStart s = s := by
  cases s with
  | nil => rfl
  | cons c rest =>
      have hc : isBlank c = false := h c rfl
      simp [trimStart, hc]

theorem trim_eq_self {s : List Char} (h : Trimmed s) : trim s = s := by
  rw [trim, trimStart_eq_self h.1, trimEnd]
  have hreverse : trimStart s.reverse = s.reverse :=
    trimStart_eq_self fun c hc => h.2 c (by simpa using hc)
  rw [trimStart] at hreverse
  rw [hreverse, List.reverse_reverse]

theorem trim_cons_of_isBlank {c : Char} (h : isBlank c = true) (s : List Char) :
    trim (c :: s) = trim s := by
  simp [trim, trimStart, h]

theorem head?_trimStart {s : List Char} {c : Char} (h : (trimStart s).head? = some c) :
    isBlank c = false := by
  induction s with
  | nil => simp [trimStart] at h
  | cons d rest ih =>
      by_cases hd : isBlank d = true
      · exact ih (by simpa [trimStart, hd] using h)
      · have hcd : d = c := by simpa [trimStart, hd] using h
        subst hcd
        simpa using hd

theorem exists_trimEnd_append (s : List Char) : ∃ blanks, trimEnd s ++ blanks = s := by
  have hsuffix : s.reverse.dropWhile isBlank <:+ s.reverse := List.dropWhile_suffix _
  obtain ⟨blanks, hblanks⟩ := List.reverse_prefix.mpr hsuffix
  exact ⟨blanks, by simpa [trimEnd] using hblanks⟩

theorem trimmed_trim (s : List Char) : Trimmed (trim s) := by
  constructor
  · intro c hc
    obtain ⟨blanks, hblanks⟩ := exists_trimEnd_append (trimStart s)
    have hne : trimEnd (trimStart s) ≠ [] := by
      intro hnil
      simp [trim, hnil] at hc
    apply head?_trimStart (s := s)
    rw [← hblanks, List.head?_append]
    cases hhead : (trimEnd (trimStart s)).head? with
    | none => exact absurd (List.head?_eq_none_iff.mp hhead) hne
    | some d =>
        rw [trim, hhead] at hc
        simpa using hc
  · intro c hc
    apply head?_trimStart (s := (trimStart s).reverse)
    rw [trim, trimEnd, List.getLast?_reverse] at hc
    exact hc

theorem trim_trim (s : List Char) : trim (trim s) = trim s :=
  trim_eq_self (trimmed_trim s)

/-- The text with blanks added around it. -/
def Padded (s t : List Char) : Prop :=
  ∃ before after, (∀ b ∈ before, isBlank b = true) ∧ (∀ b ∈ after, isBlank b = true) ∧
    t = before ++ s ++ after

theorem Padded.refl (s : List Char) : Padded s s :=
  ⟨[], [], by simp, by simp, by simp⟩

theorem trimStart_append_of_blank {blanks : List Char} (h : ∀ b ∈ blanks, isBlank b = true)
    (s : List Char) : trimStart (blanks ++ s) = trimStart s :=
  List.dropWhile_append_of_pos h

theorem trimEnd_append_of_blank {blanks : List Char} (h : ∀ b ∈ blanks, isBlank b = true)
    (s : List Char) : trimEnd (s ++ blanks) = trimEnd s := by
  rw [trimEnd, List.reverse_append, List.dropWhile_append_of_pos (by simpa using h), trimEnd]

theorem trim_append_of_blank {blanks : List Char} (h : ∀ b ∈ blanks, isBlank b = true)
    (s : List Char) : trim (s ++ blanks) = trim s := by
  induction s with
  | nil =>
      have hnil : trimStart blanks = trimStart [] := by
        simpa using trimStart_append_of_blank h []
      rw [List.nil_append, trim, hnil, trim]
  | cons c rest ih =>
      by_cases hc : isBlank c = true
      · rw [List.cons_append, trim_cons_of_isBlank hc, trim_cons_of_isBlank hc, ih]
      · have hstart : ∀ more, trimStart (c :: more) = c :: more := fun more => by
          simp [trimStart, hc]
        rw [trim, trim, List.cons_append, hstart, hstart, ← List.cons_append,
          trimEnd_append_of_blank h]

theorem Padded.trim_eq {s t : List Char} (h : Padded s t) : trim t = trim s := by
  obtain ⟨before, after, hbefore, hafter, rfl⟩ := h
  rw [trim_append_of_blank hafter, trim, trimStart_append_of_blank hbefore, trim]

theorem exists_blank_append_trimStart (s : List Char) :
    ∃ blanks, (∀ b ∈ blanks, isBlank b = true) ∧ blanks ++ trimStart s = s :=
  ⟨s.takeWhile isBlank, List.all_eq_true.mp List.all_takeWhile, List.takeWhile_append_dropWhile⟩

theorem exists_trimEnd_append_blank (s : List Char) :
    ∃ blanks, (∀ b ∈ blanks, isBlank b = true) ∧ trimEnd s ++ blanks = s := by
  obtain ⟨blanks, hblanks, heq⟩ := exists_blank_append_trimStart s.reverse
  refine ⟨blanks.reverse, by simpa using hblanks, ?_⟩
  rw [trimEnd, ← trimStart, ← List.reverse_append, heq, List.reverse_reverse]

theorem padded_trim (s : List Char) : Padded (trim s) s := by
  obtain ⟨before, hbefore, hstart⟩ := exists_blank_append_trimStart s
  obtain ⟨after, hafter, hend⟩ := exists_trimEnd_append_blank (trimStart s)
  exact ⟨before, after, hbefore, hafter, by rw [List.append_assoc, trim, hend, hstart]⟩

theorem trim_trimStart (s : List Char) : trim (trimStart s) = trim s := by
  obtain ⟨blanks, hblanks, heq⟩ := exists_blank_append_trimStart s
  have hpadded : Padded (trimStart s) s := ⟨blanks, [], hblanks, by simp, by simp [heq]⟩
  exact hpadded.trim_eq.symm

theorem trim_trimEnd (s : List Char) : trim (trimEnd s) = trim s := by
  obtain ⟨blanks, hblanks, heq⟩ := exists_trimEnd_append_blank s
  have hpadded : Padded (trimEnd s) s := ⟨[], blanks, by simp, hblanks, by simp [heq]⟩
  exact hpadded.trim_eq.symm

theorem trim_around {sep : Char} (hsep : isBlank sep = false) (before after : List Char) :
    trim (before ++ sep :: after) = trimStart before ++ sep :: trimEnd after := by
  have hstart : trimStart (before ++ sep :: after) = trimStart before ++ sep :: after := by
    rw [trimStart, List.dropWhile_append]
    split
    · rename_i hnil
      rw [← trimStart, List.isEmpty_iff] at hnil
      simp [hnil, hsep]
    · rfl
  have hend : ∀ front, trimEnd (front ++ sep :: after) = front ++ sep :: trimEnd after := by
    intro front
    have hkept : (after.reverse ++ sep :: front.reverse).dropWhile isBlank =
        after.reverse.dropWhile isBlank ++ sep :: front.reverse := by
      rw [List.dropWhile_append]
      split
      · rename_i hnil
        rw [List.isEmpty_iff] at hnil
        simp [hnil, hsep]
      · rfl
    simp [trimEnd, hkept]
  rw [trim, hstart, hend]

theorem mem_of_mem_trim {c : Char} {s : List Char} (h : c ∈ trim s) : c ∈ s := by
  obtain ⟨blanks, hblanks⟩ := exists_trimEnd_append (trimStart s)
  have hstart : c ∈ trimStart s := hblanks ▸ List.mem_append_left blanks h
  exact (List.dropWhile_suffix _).subset hstart

theorem trimmed_append {before after : List Char} (hbefore : before ≠ []) (hafter : after ≠ [])
    (hhead : ∀ c, before.head? = some c → isBlank c = false)
    (hlast : ∀ c, after.getLast? = some c → isBlank c = false) : Trimmed (before ++ after) := by
  constructor
  · intro c hc
    cases before with
    | nil => exact absurd rfl hbefore
    | cons d rest => exact hhead c hc
  · intro c hc
    rw [List.getLast?_append] at hc
    cases hlast? : after.getLast? with
    | none => exact absurd (List.getLast?_eq_none_iff.mp hlast?) hafter
    | some d =>
        rw [hlast?] at hc
        exact hlast c (by simpa [hlast?] using hc)

/-! Separators. -/

theorem fields_of_not_mem {sep : Char} {s : List Char} (h : sep ∉ s) : fields sep s = [s] := by
  induction s with
  | nil => rfl
  | cons c rest ih =>
      simp only [List.mem_cons, not_or] at h
      simp [fields, Ne.symm h.1, ih h.2]

theorem fields_append {sep : Char} {before : List Char} (h : sep ∉ before) (after : List Char) :
    fields sep (before ++ sep :: after) = before :: fields sep after := by
  induction before with
  | nil => simp [fields]
  | cons c rest ih =>
      simp only [List.mem_cons, not_or] at h
      simp [fields, Ne.symm h.1, ih h.2]

theorem fields_join (sep : Char) (before after : List Char) :
    fields sep (before ++ sep :: after) = fields sep before ++ fields sep after := by
  induction before with
  | nil => simp [fields]
  | cons c rest ih =>
      by_cases hc : c = sep
      · simp [fields, hc, ih]
      · cases hrest : fields sep rest with
        | nil => exact absurd hrest (fields_ne_nil sep rest)
        | cons first more => simp [fields, hc, ih, hrest]

theorem fields_intercalate {sep : Char} {pieces : List (List Char)} (hne : pieces ≠ [])
    (h : ∀ piece ∈ pieces, sep ∉ piece) : fields sep ([sep].intercalate pieces) = pieces := by
  induction pieces with
  | nil => exact absurd rfl hne
  | cons first rest ih =>
      obtain ⟨hfirst, hrest⟩ := List.forall_mem_cons.mp h
      cases rest with
      | nil => simpa [List.intercalate] using fields_of_not_mem hfirst
      | cons second more =>
          have hsplit : [sep].intercalate (first :: second :: more) =
              first ++ sep :: [sep].intercalate (second :: more) := by
            simp [List.intercalate]
          rw [hsplit, fields_append hfirst, ih (by simp) hrest]

theorem intercalate_fields (sep : Char) (s : List Char) : [sep].intercalate (fields sep s) = s := by
  induction s with
  | nil => rfl
  | cons c rest ih =>
      obtain ⟨piece, more, hrest⟩ := List.exists_cons_of_ne_nil (fields_ne_nil sep rest)
      rw [hrest] at ih
      by_cases hc : c = sep
      · rw [fields, if_pos hc, hrest, ← ih, hc]
        rfl
      · rw [fields, if_neg hc, hrest, ← ih]
        cases more <;> simp [List.intercalate]

theorem mem_intercalate {sep c : Char} {pieces : List (List Char)}
    (h : c ∈ [sep].intercalate pieces) : c = sep ∨ ∃ piece ∈ pieces, c ∈ piece := by
  induction pieces with
  | nil => cases h
  | cons first rest ih =>
      cases rest with
      | nil => exact .inr ⟨first, List.mem_cons_self, by simpa [List.intercalate] using h⟩
      | cons second more =>
          rw [List.intercalate_cons_cons, List.append_assoc, List.mem_append] at h
          rcases h with hfirst | h
          · exact .inr ⟨first, List.mem_cons_self, hfirst⟩
          · rcases List.mem_cons.mp h with hsep | hmore
            · exact .inl hsep
            · refine (ih hmore).imp id ?_
              rintro ⟨piece, hpiece, hc⟩
              exact ⟨piece, List.mem_cons_of_mem _ hpiece, hc⟩

theorem head?_eq_sep_iff {sep : Char} {s : List Char} :
    s.head? = some sep ↔ ∃ rest, rest ≠ [] ∧ fields sep s = [] :: rest := by
  cases s with
  | nil => simp [fields]
  | cons c rest =>
      by_cases hc : c = sep
      · simp [hc, fields, fields_ne_nil]
      · cases hrest : fields sep rest with
        | nil => exact absurd hrest (fields_ne_nil sep rest)
        | cons piece more => simp [fields, hc, hrest]

theorem exists_last_piece {sep : Char} {s : List Char} (hne : s ≠ [])
    (hlast : s.getLast? ≠ some sep) :
    ∃ before piece, fields sep s = before ++ [piece] ∧ piece ≠ [] := by
  induction s with
  | nil => exact absurd rfl hne
  | cons c rest ih =>
      by_cases hrest : rest = []
      · subst hrest
        have hc : c ≠ sep := by simpa using hlast
        exact ⟨[], [c], by simp [fields, hc], by simp⟩
      · have hmore : rest.getLast? ≠ some sep := by
          rwa [List.getLast?_cons_of_ne_nil hrest] at hlast
        obtain ⟨before, piece, hfields, hpiece⟩ := ih hrest hmore
        by_cases hc : c = sep
        · exact ⟨[] :: before, piece, by simp [fields, hc, hfields], hpiece⟩
        · cases before with
          | nil => exact ⟨[], c :: piece, by simp [fields, hc, hfields], by simp⟩
          | cons first before =>
              exact ⟨(c :: first) :: before, piece, by simp [fields, hc, hfields], hpiece⟩

theorem not_mem_of_mem_fields {sep : Char} {s piece : List Char} (h : piece ∈ fields sep s) :
    sep ∉ piece := by
  induction s generalizing piece with
  | nil =>
      have : piece = [] := by simpa [fields] using h
      simp [this]
  | cons c rest ih =>
      rw [fields] at h
      split at h
      · rcases List.mem_cons.mp h with rfl | hrest
        · simp
        · exact ih hrest
      · rename_i hc
        cases hfields : fields sep rest with
        | nil => exact absurd hfields (fields_ne_nil sep rest)
        | cons first more =>
            rw [hfields] at h
            rcases List.mem_cons.mp h with rfl | hmore
            · have hfirst : sep ∉ first := ih (by simp [hfields])
              simp [Ne.symm hc, hfirst]
            · exact ih (by simp [hfields, hmore])

theorem exists_field_of_mem {sep c : Char} {s : List Char} (hc : c ≠ sep) (h : c ∈ s) :
    ∃ piece ∈ fields sep s, c ∈ piece := by
  induction s with
  | nil => cases h
  | cons d rest ih =>
      rw [fields]
      split
      · rename_i hd
        have hrest : c ∈ rest := (List.mem_cons.mp h).resolve_left (hd ▸ hc)
        obtain ⟨piece, hpiece, hmem⟩ := ih hrest
        exact ⟨piece, List.mem_cons_of_mem _ hpiece, hmem⟩
      · cases hfields : fields sep rest with
        | nil => exact absurd hfields (fields_ne_nil sep rest)
        | cons first more =>
            rcases List.mem_cons.mp h with rfl | hrest
            · exact ⟨c :: first, List.mem_cons_self, List.mem_cons_self⟩
            · obtain ⟨piece, hpiece, hmem⟩ := ih hrest
              rw [hfields] at hpiece
              rcases List.mem_cons.mp hpiece with rfl | hpiece
              · exact ⟨d :: piece, List.mem_cons_self, List.mem_cons_of_mem _ hmem⟩
              · exact ⟨piece, List.mem_cons_of_mem _ hpiece, hmem⟩

/-! Letter case. -/

theorem toLower_cases (c : Char) :
    c.toLower = c ∨ 65 ≤ c.toNat ∧ c.toNat ≤ 90 ∧ c.toLower.toNat = c.toNat + 32 := by
  unfold Char.toLower
  split
  · rename_i h
    simp only [UInt32.le_iff_toNat_le, ge_iff_le] at h
    have hbounds : 65 ≤ c.val.toNat ∧ c.val.toNat ≤ 90 := h
    refine Or.inr ⟨hbounds.1, hbounds.2, ?_⟩
    change (c.val + 32).toNat = c.val.toNat + 32
    rw [UInt32.toNat_add, Nat.mod_eq_of_lt (by change c.val.toNat + 32 < 2 ^ 32; omega)]
    rfl
  · exact Or.inl rfl

theorem isBlank_toLower (c : Char) : isBlank c.toLower = isBlank c := by
  rcases toLower_cases c with h | ⟨hlow, hhigh, h⟩
  · rw [h]
  · rw [isBlank_of_between (by omega) (by omega), isBlank_of_between (by omega) (by omega)]

theorem trim_lower (s : List Char) : trim (lower s) = lower (trim s) := by
  have hdrop : ∀ t : List Char, (t.map Char.toLower).dropWhile isBlank =
      (t.dropWhile isBlank).map Char.toLower := fun t => by
    rw [List.dropWhile_map]
    congr 2
    funext c
    exact isBlank_toLower c
  simp only [trim, trimEnd, trimStart, lower, ← List.map_reverse, hdrop]

theorem mem_lower_iff {c : Char} (h : c.toNat < 65) {s : List Char} : c ∈ lower s ↔ c ∈ s := by
  rw [lower, List.mem_map]
  constructor
  · rintro ⟨d, hd, hlower⟩
    rcases toLower_cases d with hsame | ⟨hlow, hhigh, heq⟩
    · rwa [← hlower, hsame]
    · rw [← hlower] at h
      omega
  · intro hc
    refine ⟨c, hc, ?_⟩
    rcases toLower_cases c with hsame | ⟨hlow, hhigh, heq⟩
    · exact hsame
    · omega

/-- What stands between an affix in front and one behind, whatever the case of their letters. -/
theorem between_affixes_iff {front back s middle : List Char} (hmiddle : middle ≠ []) :
    (front <+: lower s ∧ back <:+ lower s ∧
        (s.take (s.length - back.length)).drop front.length = middle) ↔
      ∃ head tail, s = head ++ middle ++ tail ∧ lower head = front ∧ lower tail = back := by
  constructor
  · rintro ⟨hfront, hback, rfl⟩
    have hroom : front.length < s.length - back.length :=
      Nat.lt_of_not_le fun hle => hmiddle (List.drop_eq_nil_of_le
        (Nat.le_trans (List.length_take_le ..) hle))
    have hhead : (s.take (s.length - back.length)).take front.length = s.take front.length := by
      rw [List.take_take, Nat.min_eq_left (Nat.le_of_lt hroom)]
    refine ⟨s.take front.length, s.drop (s.length - back.length), ?_, ?_, ?_⟩
    · rw [← hhead, List.take_append_drop, List.take_append_drop]
    · rw [lower, List.map_take]
      exact (List.prefix_iff_eq_take.mp hfront).symm
    · rw [lower, List.map_drop, ← s.length_map Char.toLower]
      exact (List.suffix_iff_eq_drop.mp hback).symm
  · rintro ⟨head, tail, rfl, rfl, rfl⟩
    refine ⟨?_, ?_, ?_⟩
    · exact ⟨lower (middle ++ tail), by simp [lower]⟩
    · exact ⟨lower (head ++ middle), by simp [lower]⟩
    · have hstop : (head ++ middle ++ tail).length - (lower tail).length =
          (head ++ middle).length := by
        simp only [lower, List.length_append, List.length_map]
        omega
      rw [hstop, List.take_left, lower, List.length_map, List.drop_left]

/-! Hexadecimal digits. -/

namespace Hex

/-- The octet of the digit with a given value. -/
def digitOctet (n : Nat) : UInt8 :=
  UInt8.ofNat (digit n).toNat

theorem utf8EncodeChar_digit {n : Nat} (h : n < 16) :
    String.utf8EncodeChar (digit n) = [digitOctet n] := by
  have hall : ∀ k : Fin 16, String.utf8EncodeChar (digit k) = [digitOctet k] := by decide
  exact hall ⟨n, h⟩

theorem value?_digitOctet {n : Nat} (h : n < 16) : value? (digitOctet n) = some n := by
  have hall : ∀ k : Fin 16, value? (digitOctet k) = some k.val := by decide
  exact hall ⟨n, h⟩

theorem digit_ne {n : Nat} (h : n < 16) : isBlank (digit n) = false ∧ digit n ≠ ',' := by
  have hall : ∀ k : Fin 16, isBlank (digit k) = false ∧ digit k ≠ ',' := by decide
  exact hall ⟨n, h⟩

theorem div_lt_sixteen (b : UInt8) : b.toNat / 16 < 16 := by
  have := b.toNat_lt
  omega

theorem octetsOf_encode (octets : Octets) :
    octetsOf (encode octets) =
      octets.flatMap fun b => [digitOctet (b.toNat / 16), digitOctet (b.toNat % 16)] := by
  induction octets with
  | nil => rfl
  | cons b rest ih =>
      have hhigh := utf8EncodeChar_digit (div_lt_sixteen b)
      have hlow := utf8EncodeChar_digit (Nat.mod_lt b.toNat (by decide : 0 < 16))
      simp only [octetsOf, encode] at ih
      simp [octetsOf, encode, hhigh, hlow, ih]

theorem decodePairs_digits (octets : Octets) (position : Nat) :
    decodePairs position
        (octets.flatMap fun b => [digitOctet (b.toNat / 16), digitOctet (b.toNat % 16)]) =
      .ok octets := by
  induction octets generalizing position with
  | nil => rfl
  | cons b rest ih =>
      have hbyte : 16 * (b.toNat / 16) + b.toNat % 16 = b.toNat := Nat.div_add_mod b.toNat 16
      simp [decodePairs, value?_digitOctet (div_lt_sixteen b),
        value?_digitOctet (Nat.mod_lt b.toNat (by decide : 0 < 16)), ih, Except.map, hbyte]

@[simp] theorem decode_encode (octets : Octets) : decode (encode octets) = .ok octets := by
  have heven : (octets.flatMap fun b =>
      [digitOctet (b.toNat / 16), digitOctet (b.toNat % 16)]).length % 2 = 0 := by
    induction octets with
    | nil => rfl
    | cons b rest ih =>
        simp only [List.flatMap_cons, List.length_append, List.length_cons, List.length_nil]
        omega
  simp only [decode, octetsOf_encode]
  rw [if_neg (by omega), decodePairs_digits]

/-- The characters that are digits, in either case. -/
def isDigit (c : Char) : Bool :=
  c.isDigit || ('a' ≤ c && c ≤ 'f') || ('A' ≤ c && c ≤ 'F')

theorem isDigit_iff {c : Char} :
    isDigit c = true ↔ (48 ≤ c.toNat ∧ c.toNat ≤ 57) ∨ (97 ≤ c.toNat ∧ c.toNat ≤ 102) ∨
      (65 ≤ c.toNat ∧ c.toNat ≤ 70) := by
  simp only [isDigit, Char.isDigit, Bool.or_eq_true, Bool.and_eq_true, decide_eq_true_eq, ge_iff_le,
    Char.le_def, UInt32.le_iff_toNat_le]
  exact or_assoc

theorem isSome_value? {b : UInt8} :
    (value? b).isSome = true ↔ (48 ≤ b.toNat ∧ b.toNat ≤ 57) ∨ (97 ≤ b.toNat ∧ b.toNat ≤ 102) ∨
      (65 ≤ b.toNat ∧ b.toNat ≤ 70) := by
  simp only [value?]
  split
  · simp [*]
  · split
    · simp [*]
    · split
      · simp [*]
      · simp [*]

theorem utf8EncodeChar_of_lt {c : Char} (h : c.toNat < 128) :
    String.utf8EncodeChar c = [UInt8.ofNat c.toNat] := by
  have hle : c.val.toNat ≤ 127 := Nat.lt_succ_iff.mp h
  simp only [String.utf8EncodeChar, hle, if_true]
  rfl

theorem exists_high_octet {c : Char} (h : 128 ≤ c.toNat) :
    ∃ b ∈ String.utf8EncodeChar c, 128 ≤ b.toNat := by
  have hvalue : ¬ c.val.toNat ≤ 127 := Nat.not_le.mpr h
  unfold String.utf8EncodeChar
  dsimp only
  rw [if_neg hvalue]
  repeat' split
  all_goals
    refine ⟨_, List.mem_cons_self, ?_⟩
    rw [UInt8.toNat_ofNat']
    omega

theorem octets_are_digits {c : Char} :
    (∀ b ∈ String.utf8EncodeChar c, (value? b).isSome = true) ↔ isDigit c = true := by
  simp only [isSome_value?, isDigit_iff]
  by_cases hlow : c.toNat < 128
  · rw [utf8EncodeChar_of_lt hlow]
    simp only [List.mem_singleton, forall_eq, UInt8.toNat_ofNat']
    rw [Nat.mod_eq_of_lt (by omega)]
  · obtain ⟨b, hb, hhigh⟩ := exists_high_octet (Nat.not_lt.mp hlow)
    constructor
    · intro h
      have := h b hb
      omega
    · omega

theorem length_octetsOf {s : List Char} (h : ∀ c ∈ s, isDigit c = true) :
    (octetsOf s).length = s.length := by
  induction s with
  | nil => rfl
  | cons c rest ih =>
      obtain ⟨hc, hrest⟩ := List.forall_mem_cons.mp h
      have hlow : c.toNat < 128 := by
        have := isDigit_iff.mp hc
        omega
      have hcons : octetsOf (c :: rest) = UInt8.ofNat c.toNat :: octetsOf rest := by
        simp [octetsOf, utf8EncodeChar_of_lt hlow]
      simp [hcons, ih hrest]

theorem decodePairs_isOk {octets : Octets} (position : Nat) :
    (∃ bytes, decodePairs position octets = .ok bytes) ↔
      octets.length % 2 = 0 ∧ ∀ b ∈ octets, (value? b).isSome = true := by
  fun_induction decodePairs position octets with
  | case1 => simp
  | case2 => simp
  | case3 position high low rest hhigh => simp [hhigh]
  | case4 position high low rest h hlow => simp [hlow]
  | case5 position high low rest h l hlow hhigh ih =>
      have hmap : (∃ bytes, (decodePairs (position + 2) rest).map
            (UInt8.ofNat (16 * h + l) :: ·) = .ok bytes) ↔
          ∃ bytes, decodePairs (position + 2) rest = .ok bytes := by
        cases decodePairs (position + 2) rest <;> simp [Except.map]
      have hlength : (high :: low :: rest).length % 2 = rest.length % 2 := by
        simp only [List.length_cons]
        omega
      rw [hmap, ih, hlength]
      simp [hhigh, hlow]

/-- What can be read is an even number of digits. -/
theorem decode_isOk {s : List Char} :
    (∃ octets, decode s = .ok octets) ↔ s.length % 2 = 0 ∧ ∀ c ∈ s, isDigit c = true := by
  have hdigits : (∀ b ∈ octetsOf s, (value? b).isSome = true) ↔ ∀ c ∈ s, isDigit c = true := by
    simp only [octetsOf, List.mem_flatMap, ← octets_are_digits]
    exact ⟨fun h c hc b hb => h b ⟨c, hc, hb⟩, fun h b ⟨c, hc, hb⟩ => h c hc b hb⟩
  have hpairs : (∃ octets, decode s = .ok octets) ↔
      (octetsOf s).length % 2 = 0 ∧ ∀ b ∈ octetsOf s, (value? b).isSome = true := by
    rw [← decodePairs_isOk 0, decode]
    split
    · rename_i hodd
      rw [decodePairs_isOk]
      simp [hodd]
    · rfl
  rw [hpairs, hdigits]
  exact ⟨fun ⟨heven, h⟩ => ⟨length_octetsOf h ▸ heven, h⟩,
    fun ⟨heven, h⟩ => ⟨(length_octetsOf h).symm ▸ heven, h⟩⟩

theorem mem_encode {octets : Octets} {c : Char} (h : c ∈ encode octets) :
    isBlank c = false ∧ c ≠ ',' := by
  simp only [encode, List.mem_flatMap, List.mem_cons, List.not_mem_nil, or_false] at h
  obtain ⟨b, _, rfl | rfl⟩ := h
  · exact digit_ne (div_lt_sixteen b)
  · exact digit_ne (Nat.mod_lt _ (by decide))

end Hex

/-! The order of texts is that of their octets. -/

/-- The digits to the base of 64, each of which goes into an octet of its own. -/
theorem digits_lt {v w : Nat} (h : v < w) :
    v / 262144 < w / 262144 ∨ v / 262144 = w / 262144 ∧ (v / 4096 % 64 < w / 4096 % 64 ∨
      v / 4096 % 64 = w / 4096 % 64 ∧ (v / 64 % 64 < w / 64 % 64 ∨
        v / 64 % 64 = w / 64 % 64 ∧ v % 64 < w % 64)) := by
  omega

theorem utf8EncodeChar_lt {c d : Char} (h : c < d) (rest more : Octets) :
    String.utf8EncodeChar c ++ rest < String.utf8EncodeChar d ++ more := by
  have hlt : c.val.toNat < d.val.toNat := UInt32.lt_iff_toNat_lt.mp h
  have hbound : d.val.toNat < 0x110000 := by
    rcases d.valid with hlow | ⟨-, hhigh⟩ <;> omega
  have hdigits := digits_lt hlt
  unfold String.utf8EncodeChar
  generalize c.val.toNat = v at *
  generalize d.val.toNat = w at *
  dsimp only
  -- One case for each pair of lengths; the longer encoding begins with the greater octet.
  repeat' split
  all_goals
    simp (disch := omega) only [List.cons_append, List.nil_append, List.cons_lt_cons_iff,
      UInt8.lt_iff_toNat_lt, ← UInt8.toNat_inj, UInt8.toNat_ofNat', Nat.mod_eq_of_lt]
    omega

theorem exists_cons_utf8EncodeChar (c : Char) (rest : Octets) :
    ∃ first more, String.utf8EncodeChar c ++ rest = first :: more := by
  unfold String.utf8EncodeChar
  dsimp only
  repeat' split
  all_goals exact ⟨_, _, rfl⟩

theorem octetsOf_lt {s t : List Char} (h : s < t) : Hex.octetsOf s < Hex.octetsOf t := by
  induction h with
  | @nil d t =>
      obtain ⟨first, more, heq⟩ := exists_cons_utf8EncodeChar d (Hex.octetsOf t)
      rw [Hex.octetsOf, Hex.octetsOf, List.flatMap_cons, List.flatMap_nil, ← Hex.octetsOf, heq]
      exact List.nil_lt_cons ..
  | rel h => exact utf8EncodeChar_lt h _ _
  | cons _ ih => exact List.append_left_lt ih

theorem octetsOf_lt_of_compare {s t : String} (h : compare s t = .lt) :
    Hex.octetsOf s.toList < Hex.octetsOf t.toList :=
  octetsOf_lt (String.lt_iff.mp (compareOfLessAndEq_eq_lt.mp h))

end PluginHost.Text
