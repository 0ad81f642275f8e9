import PluginHost.Json.Printer
import PluginHost.Json.Reader

/-!
Strings and numerals as text, read back. A string is read escape by escape; a numeral ends where no
digit, point or exponent follows.
-/

namespace PluginHost.Json

/-! Strings. -/

/-- The characters with an escape of their own. -/
def named : List Char :=
  ['"', '\\', '\x08', '\x0c', '\n', '\r', '\t']

/-- The piece that an escaped character is read as. -/
def pieceOf (c : Char) : Piece :=
  if c.toNat < 0x20 ∧ c ∉ named then .unit c.toNat else .char c

theorem unit?_control : ∀ n : Fin 0x20,
    unit? '0' '0' (Text.Hex.digit (n / 16)) (Text.Hex.digit (n % 16)) = some n.val := by
  decide

theorem pieces?_unit {a b c d : Char} {n : Nat} (h : unit? a b c d = some n) (rest : List Char) :
    pieces? ('\\' :: 'u' :: a :: b :: c :: d :: rest) =
      (pieces? rest).map fun read => (.unit n :: read.1, read.2) := by
  rw [pieces?, h]
  cases pieces? rest <;> rfl

theorem pieces?_char {c : Char} (hplain : 0x20 ≤ c.toNat) (hnamed : c ∉ named) (rest : List Char) :
    pieces? (c :: rest) = (pieces? rest).map fun read => (.char c :: read.1, read.2) := by
  have hquote : c ≠ '"' := fun heq => hnamed (by simp [named, heq])
  have hslash : c ≠ '\\' := fun heq => hnamed (by simp [named, heq])
  have hnot : ¬ (c.toNat < 0x20 ∨ c = '\\') := by
    rintro (hlow | heq)
    · omega
    · exact hslash heq
  rw [pieces?]
  · rw [if_neg hnot]
    cases pieces? rest <;> rfl
  · exact hquote
  · exact fun _ _ _ _ _ heq _ => hslash heq
  · exact fun _ _ heq _ => hslash heq

theorem pieces?_escapeChar (c : Char) (rest : List Char) :
    pieces? (escapeChar c ++ rest) =
      (pieces? rest).map fun read => (pieceOf c :: read.1, read.2) := by
  by_cases hnamed : c ∈ named
  · have hpiece : pieceOf c = .char c := by simp [pieceOf, hnamed]
    rw [hpiece]
    simp only [named, List.mem_cons, List.not_mem_nil, or_false] at hnamed
    rcases hnamed with rfl | rfl | rfl | rfl | rfl | rfl | rfl
    all_goals
      change ((pieces? rest).bind fun read => some (_ :: read.1, read.2)) = _
      cases pieces? rest <;> rfl
  · have hescape : escapeChar c = if c.toNat < 0x20 then
        ['\\', 'u', '0', '0', Text.Hex.digit (c.toNat / 16), Text.Hex.digit (c.toNat % 16)]
        else [c] := by
      simp only [named, List.mem_cons, List.not_mem_nil, or_false, not_or] at hnamed
      simp only [escapeChar, hnamed, if_false]
    rw [hescape]
    split
    · rename_i hlow
      rw [pieceOf, if_pos ⟨hlow, hnamed⟩]
      exact pieces?_unit (unit?_control ⟨c.toNat, hlow⟩) rest
    · rename_i hplain
      rw [pieceOf, if_neg fun h => hplain h.1]
      exact pieces?_char (Nat.le_of_not_lt hplain) hnamed rest

theorem pieces?_escaped (s rest : List Char) :
    pieces? (s.flatMap escapeChar ++ '"' :: rest) = some (s.map pieceOf, rest) := by
  induction s with
  | nil => rw [List.flatMap_nil, List.nil_append, pieces?, List.map_nil]
  | cons c s ih =>
      rw [List.flatMap_cons, List.append_assoc, pieces?_escapeChar, ih]
      rfl

theorem joinPieces_unit {n : Nat} (hhigh : isHigh n = false) (hlow : isLow n = false)
    (rest : List Piece) :
    joinPieces (.unit n :: rest) = (Char.ofNat n :: (joinPieces rest).1, (joinPieces rest).2) := by
  cases rest with
  | nil => simp [joinPieces, hhigh, hlow]
  | cons piece rest => cases piece <;> simp [joinPieces, hhigh, hlow]

theorem joinPieces_cons (c : Char) (rest : List Piece) :
    joinPieces (pieceOf c :: rest) = (c :: (joinPieces rest).1, (joinPieces rest).2) := by
  unfold pieceOf
  split
  · rename_i h
    have hhigh : isHigh c.toNat = false := by
      simp only [isHigh, Bool.and_eq_false_iff, decide_eq_false_iff_not]
      omega
    have hlow : isLow c.toNat = false := by
      simp only [isLow, Bool.and_eq_false_iff, decide_eq_false_iff_not]
      omega
    rw [joinPieces_unit hhigh hlow, Char.ofNat_toNat]
  · rw [joinPieces]

theorem joinPieces_map (s : List Char) : joinPieces (s.map pieceOf) = (s, true) := by
  induction s with
  | nil => rfl
  | cons c s ih => rw [List.map_cons, joinPieces_cons, ih]

/-- A string without unpaired surrogates is read as it was written. -/
theorem string?_quote (s : String) (rest : List Char) :
    string? (s.toList.flatMap escapeChar ++ '"' :: rest) = some (Str.of s, rest) := by
  rw [string?, pieces?_escaped]
  simp [joinPieces_map, Str.of]

/-! Numerals. -/

/-- Nothing here continues a numeral. -/
def EndsNumeral (rest : List Char) : Prop :=
  ∀ c, rest.head? = some c → c.isDigit = false ∧ c ≠ '.' ∧ c ≠ 'e' ∧ c ≠ 'E'

/-- A numeral that is written as the grammar has it. -/
structure Numeral.Proper (n : Numeral) : Prop where
  whole : n.whole ≠ []
  wholeDigits : ∀ c ∈ n.whole, c.isDigit = true
  /-- No zero stands in front of other digits. -/
  leading : n.whole.head? = some '0' → n.whole = ['0']
  fraction : ∀ c ∈ n.fraction, c.isDigit = true
  exponent : ∀ negative power, n.exponent = some (negative, power) →
    power ≠ [] ∧ ∀ c ∈ power, c.isDigit = true
  floating : n.floating = decide (n.fraction ≠ [] ∨ n.exponent ≠ none)

theorem ne_of_isDigit {c other : Char} (h : c.isDigit = true) (hother : other.isDigit = false) :
    c ≠ other := by
  rintro rfl
  rw [h] at hother
  cases hother

theorem digits_append {s rest : List Char} (hs : ∀ c ∈ s, c.isDigit = true)
    (hrest : ∀ c, rest.head? = some c → c.isDigit = false) : digits (s ++ rest) = (s, rest) := by
  have htake : rest.takeWhile Char.isDigit = [] := by
    cases rest with
    | nil => rfl
    | cons c rest => simp [hrest c rfl]
  have hdrop : rest.dropWhile Char.isDigit = rest := by
    cases rest with
    | nil => rfl
    | cons c rest => simp [hrest c rfl]
  rw [digits, List.takeWhile_append_of_pos hs, List.dropWhile_append_of_pos hs, htake, hdrop,
    List.append_nil]

def Numeral.fractionPart (n : Numeral) : List Char :=
  if n.fraction = [] then [] else '.' :: n.fraction

def Numeral.exponentPart (n : Numeral) : List Char :=
  match n.exponent with
  | none => []
  | some (negative, power) => 'e' :: (if negative then ['-'] else []) ++ power

theorem Numeral.print_eq (n : Numeral) :
    n.print = (if n.negative then ['-'] else []) ++
      (n.whole ++ (n.fractionPart ++ n.exponentPart)) := by
  unfold print fractionPart exponentPart
  cases n.exponent <;> simp

theorem EndsNumeral.exponent? {rest : List Char} (h : EndsNumeral rest) :
    exponent? rest = some (none, rest) := by
  cases rest with
  | nil => rfl
  | cons c rest =>
      obtain ⟨-, -, hlower, hupper⟩ := h c rfl
      simp [Json.exponent?, hlower, hupper]

theorem exponent?_append {n : Numeral} (hproper : n.Proper) {rest : List Char}
    (hrest : EndsNumeral rest) :
    exponent? (n.exponentPart ++ rest) = some (n.exponent, rest) := by
  unfold Numeral.exponentPart
  cases hexponent : n.exponent with
  | none => exact hrest.exponent?
  | some pair =>
      obtain ⟨negative, power⟩ := pair
      obtain ⟨hne, hdigits⟩ := hproper.exponent negative power hexponent
      have hpower : digits (power ++ rest) = (power, rest) :=
        digits_append hdigits fun c hc => (hrest c hc).1
      cases negative with
      | true => simp [exponent?, hpower, hne]
      | false =>
          cases power with
          | nil => exact absurd rfl hne
          | cons first more =>
              have hfirst : first.isDigit = true := hdigits first List.mem_cons_self
              have hminus : first ≠ '-' := ne_of_isDigit hfirst (by decide)
              have hplus : first ≠ '+' := ne_of_isDigit hfirst (by decide)
              rw [List.cons_append] at hpower
              simp [exponent?, hpower, hminus, hplus]

theorem isDigit_head_exponentPart {n : Numeral} {rest : List Char} (hrest : EndsNumeral rest)
    {c : Char} (hc : (n.exponentPart ++ rest).head? = some c) : c.isDigit = false ∧ c ≠ '.' := by
  unfold Numeral.exponentPart at hc
  cases hexponent : n.exponent with
  | none =>
      rw [hexponent] at hc
      obtain ⟨hdigit, hpoint, -⟩ := hrest c hc
      exact ⟨hdigit, hpoint⟩
  | some pair =>
      rw [hexponent] at hc
      cases hc
      decide

theorem fraction?_append {n : Numeral} (hproper : n.Proper) {rest : List Char}
    (hrest : EndsNumeral rest) :
    fraction? (n.fractionPart ++ (n.exponentPart ++ rest)) =
      some (n.fraction, n.exponentPart ++ rest) := by
  unfold Numeral.fractionPart
  have hhead : ∀ c, (n.exponentPart ++ rest).head? = some c → c.isDigit = false ∧ c ≠ '.' :=
    fun c => isDigit_head_exponentPart hrest
  generalize n.exponentPart ++ rest = after at hhead
  split
  · rename_i hnone
    rw [hnone, List.nil_append]
    cases after with
    | nil => rfl
    | cons c after =>
        have hpoint : c ≠ '.' := (hhead c rfl).2
        simp [fraction?, hpoint]
  · rename_i hsome
    have hplaces : digits (n.fraction ++ after) = (n.fraction, after) :=
      digits_append hproper.fraction fun c hc => (hhead c hc).1
    simp [fraction?, hplaces, hsome]

theorem numeral?_append {n : Numeral} (hproper : n.Proper) {rest : List Char}
    (hrest : EndsNumeral rest) :
    numeral? n.negative (n.whole ++ (n.fractionPart ++ (n.exponentPart ++ rest))) =
      some (n, rest) := by
  have hhead : ∀ c, (n.fractionPart ++ (n.exponentPart ++ rest)).head? = some c →
      c.isDigit = false := by
    intro c hc
    unfold Numeral.fractionPart at hc
    split at hc
    · exact (isDigit_head_exponentPart hrest hc).1
    · cases hc
      decide
  have hwhole : ¬ (n.whole = [] ∨ n.whole.head? = some '0' ∧ n.whole ≠ ['0']) := by
    rintro (hnil | ⟨hzero, hmore⟩)
    · exact hproper.whole hnil
    · exact hmore (hproper.leading hzero)
  rw [numeral?, digits_append hproper.wholeDigits hhead]
  simp only [if_neg hwhole, fraction?_append hproper hrest, exponent?_append hproper hrest,
    Option.bind_eq_bind, Option.bind_some, Option.pure_def, ← hproper.floating]

end PluginHost.Json
