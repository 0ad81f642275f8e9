import PluginHost.Proofs.Text
import PluginHost.Timestamp

/-!
A point in time is read back from its text, whose fields all have the width that is read.
-/

namespace PluginHost.Timestamp

/-- A point in time that clocks show: every field is in its range, the fraction too. -/
def Valid (t : Timestamp) : Prop :=
  t.InRange ∧ t.nanosecond < 1000000000

instance (t : Timestamp) : Decidable t.Valid :=
  inferInstanceAs (Decidable (_ ∧ _))

/-! Fields of digits. -/

theorem isDigit_of_mem_padded {width n : Nat} {c : Char} (h : c ∈ padded width n) :
    c.isDigit = true := by
  unfold padded at h
  rcases List.mem_append.mp h with hzero | hprint
  · rw [List.eq_of_mem_replicate hzero]
    decide
  · exact Text.Numeral.isDigit_of_mem_print hprint

theorem padded_ne_nil (width n : Nat) : padded width n ≠ [] := by
  simp [padded, Text.Numeral.print_ne_nil]

theorem value?_padded (width n : Nat) : Text.Numeral.value? (padded width n) = some n := by
  have hdigits : (padded width n).all Char.isDigit = true :=
    List.all_eq_true.mpr fun _ => isDigit_of_mem_padded
  rw [Text.Numeral.value?, if_pos ⟨padded_ne_nil width n, hdigits⟩, padded,
    Nat.ofDigitChars_append, Nat.ofDigitChars_replicate_zero, Nat.mul_zero, Text.Numeral.print,
    Nat.ofDigitChars_ten_toDigits]

theorem length_padded {width n : Nat} (hwidth : 0 < width) (h : n < Nat.pow 10 width) :
    (padded width n).length = width := by
  have hprint : (Text.Numeral.print n).length ≤ width :=
    (Nat.length_toDigits_le_iff (by decide) hwidth).mpr h
  unfold padded
  rw [List.length_append, List.length_replicate]
  omega

theorem trimStart_padded (width n : Nat) (rest : List Char) :
    Text.trimStart (padded width n ++ rest) = padded width n ++ rest := by
  apply Text.trimStart_eq_self
  intro c hc
  cases hpadded : padded width n with
  | nil => exact absurd hpadded (padded_ne_nil width n)
  | cons d more =>
      have hdigit : d.isDigit = true := 
        @isDigit_of_mem_padded width n d (by simp [hpadded])
      rw [hpadded] at hc
      cases hc
      exact Text.isBlank_of_isDigit hdigit

def EndsDigits (rest : List Char) : Prop :=
  ∀ c, rest.head? = some c → c.isDigit = false

theorem takeWhile_padded (width n : Nat) {rest : List Char} (h : EndsDigits rest) :
    (padded width n ++ rest).takeWhile Char.isDigit = padded width n := by
  have hrest : rest.takeWhile Char.isDigit = [] := by
    cases rest with
    | nil => rfl
    | cons c rest => simp [h c rfl]
  rw [List.takeWhile_append_of_pos fun _ => isDigit_of_mem_padded, hrest, List.append_nil]

theorem number?_padded {width limit n : Nat} {rest : List Char}
    (h : (padded width n).length = limit ∨
      (padded width n).length ≤ limit ∧ EndsDigits rest) :
    number? limit (padded width n ++ rest) = some (n, rest) := by
  have hdigits : ((padded width n ++ rest).take limit).takeWhile Char.isDigit =
      padded width n := by
    rcases h with hlength | ⟨hlength, hends⟩
    · have hall := @takeWhile_padded width n [] fun c hc => by cases hc
      rw [List.append_nil] at hall
      rw [List.take_left' hlength, hall]
    · rw [List.take_append, List.take_of_length_le hlength]
      apply takeWhile_padded
      intro c hc
      cases hlimit : limit - (padded width n).length with
      | zero => simp [hlimit] at hc
      | succ more =>
          cases rest with
          | nil => simp at hc
          | cons d rest =>
              rw [hlimit, List.take_succ_cons] at hc
              exact hends c hc
  unfold number?
  simp only [hdigits, value?_padded, Option.map_some, List.drop_left]

theorem field?_padded {width n : Nat} (hwidth : 0 < width) (h : n < Nat.pow 10 width)
    (rest : List Char) : field? width (padded width n ++ rest) = some (n, rest) := by
  rw [field?, trimStart_padded, number?_padded (.inl (length_padded hwidth h))]

theorem mark?_cons {c : Char} (h : Text.isBlank c = false) (rest : List Char) :
    mark? c (c :: rest) = some rest := by
  have htrim : Text.trimStart (c :: rest) = c :: rest := by
    apply Text.trimStart_eq_self
    intro d hd
    cases hd
    exact h
  simp [mark?, htrim]

/-! The parts of a text. -/

theorem endsDigits_cons {c : Char} (h : c.isDigit = false) (rest : List Char) :
    EndsDigits (c :: rest) := by
  intro d hd
  cases hd
  exact h

theorem year?_yearText (year : Int) (rest : List Char) :
    year? (yearText year ++ '-' :: rest) = some (year, '-' :: rest) := by
  have hends : EndsDigits ('-' :: rest) := endsDigits_cons (by decide) rest
  have hlong : ∀ n, number? (padded 4 n ++ '-' :: rest).length (padded 4 n ++ '-' :: rest) =
      some (n, '-' :: rest) := fun n => number?_padded (.inr ⟨by simp, hends⟩)
  by_cases hplain : 0 ≤ year ∧ year ≤ 9999
  · have hfour : year.toNat < 10000 := by omega
    have hnumber := @number?_padded 4 4 year.toNat ('-' :: rest)
      (.inl (length_padded (by decide) hfour))
    have hyear : ((year.toNat : Nat) : Int) = year := Int.toNat_of_nonneg hplain.1
    rw [year?, yearText, if_pos hplain, trimStart_padded]
    cases hpadded : padded 4 year.toNat with
    | nil => exact absurd hpadded (padded_ne_nil 4 year.toNat)
    | cons c more =>
        have hdigit : c.isDigit = true :=
          @isDigit_of_mem_padded 4 year.toNat c (by simp [hpadded])
        rw [hpadded, List.cons_append] at hnumber
        have hminus : c ≠ '-' := by
          rintro rfl
          exact absurd hdigit (by decide)
        have hplus : c ≠ '+' := by
          rintro rfl
          exact absurd hdigit (by decide)
        simp [hminus, hplus, hnumber, hyear]
  · have hsigned : ∀ sign, Text.isBlank sign = false →
        Text.trimStart (sign :: padded 4 year.natAbs ++ '-' :: rest) =
          sign :: (padded 4 year.natAbs ++ '-' :: rest) := by
      intro sign hsign
      apply Text.trimStart_eq_self
      intro c hc
      cases hc
      exact hsign
    rw [year?, yearText, if_neg hplain]
    by_cases hneg : year < 0
    · have hyear : -((year.natAbs : Nat) : Int) = year := by omega
      rw [if_pos hneg, hsigned '-' (by decide)]
      simp only [hlong, Option.map_some, hyear]
    · have hyear : ((year.natAbs : Nat) : Int) = year := by omega
      rw [if_neg hneg, hsigned '+' (by decide)]
      simp only [hlong, Option.map_some, hyear]

theorem fraction?_places {places n : Nat} (hplaces : 0 < places) (hnine : places ≤ 9)
    (h : n < Nat.pow 10 places) {rest : List Char} (hends : EndsDigits rest) :
    fraction? ('.' :: padded places n ++ rest) =
      some (n * Nat.pow 10 (9 - places), rest.dropWhile Char.isDigit) := by
  have hlength : (padded places n).length = places := length_padded hplaces h
  have hnumber : number? 9 (padded places n ++ rest) = some (n, rest) :=
    number?_padded (.inr ⟨by omega, hends⟩)
  have hwidth : (padded places n ++ rest).length - rest.length = places := by
    rw [List.length_append, hlength]
    omega
  simp only [fraction?, List.cons_append, hnumber, Option.bind_eq_bind, Option.bind_some, hwidth,
    Option.pure_def]

theorem fraction?_fractionText {nanosecond : Nat} (h : nanosecond < 1000000000) :
    fraction? (fractionText nanosecond ++ ['Z']) = some (nanosecond, ['Z']) := by
  have hends : EndsDigits ['Z'] := endsDigits_cons (by decide) []
  unfold fractionText
  split
  · rename_i hzero
    rw [hzero]
    rfl
  · split
    · rename_i hmilli
      have hplaces : nanosecond / 1000000 < 1000 := by omega
      have hvalue : nanosecond / 1000000 * 1000000 = nanosecond := by omega
      exact (fraction?_places (by decide) (by decide) hplaces hends).trans
        (congrArg (fun n => some (n, ['Z'])) hvalue)
    · split
      · rename_i hmicro
        have hplaces : nanosecond / 1000 < 1000000 := by omega
        have hvalue : nanosecond / 1000 * 1000 = nanosecond := by omega
        exact (fraction?_places (by decide) (by decide) hplaces hends).trans
          (congrArg (fun n => some (n, ['Z'])) hvalue)
      · exact (fraction?_places (by decide) (by decide) h hends).trans
          (congrArg (fun n => some (n, ['Z'])) (Nat.mul_one nanosecond))

theorem withoutOffset_zero {t : Timestamp} (hhour : t.hour ≤ 23) (hminute : t.minute ≤ 59) :
    t.withoutOffset 0 = t := by
  have hlow : ¬ ((60 * t.hour + t.minute : Nat) - 0 : Int) < 0 := by omega
  have hhigh : ¬ ((60 * t.hour + t.minute : Nat) - 0 : Int) ≥ 1440 := by omega
  have hrest : (((60 * t.hour + t.minute : Nat) - 0 : Int) % 1440).toNat =
      60 * t.hour + t.minute := by omega
  have hhours : (60 * t.hour + t.minute) / 60 = t.hour := by omega
  have hminutes : (60 * t.hour + t.minute) % 60 = t.minute := by omega
  simp only [withoutOffset, if_neg hlow, if_neg hhigh, hrest, hhours, hminutes]

theorem Valid.parse?_text {t : Timestamp} (h : t.Valid) : parse? t.text = some t := by
  obtain ⟨hrange, hnano⟩ := h
  have hfields := hrange
  simp only [InRange] at hfields
  have hdays : daysIn t.year t.month ≤ 31 := by
    unfold daysIn
    split
    · split <;> omega
    · split <;> omega
  have hmonth : t.month < 100 := by omega
  have hday : t.day < 100 := by omega
  have hhour : t.hour < 100 := by omega
  have hminute : t.minute < 100 := by omega
  have hsecond : t.second < 100 := by omega
  have hoffset : offset? ['Z'] = some (0, []) := by decide
  have hlocal : (⟨t.year, t.month, t.day, t.hour, t.minute, t.second, t.nanosecond⟩ : Timestamp) =
      t := by
    cases t
    rfl
  have hzero : t.withoutOffset 0 = t := withoutOffset_zero (by omega) (by omega)
  have hdash : Text.isBlank '-' = false := by decide
  have hcolon : Text.isBlank ':' = false := by decide
  simp only [parse?, text, String.toList_ofList, List.append_assoc, List.cons_append,
    year?_yearText, Option.bind_eq_bind, Option.bind_some, mark?_cons hdash, mark?_cons hcolon,
    field?_padded (by decide : 0 < 2) hmonth, field?_padded (by decide : 0 < 2) hday,
    field?_padded (by decide : 0 < 2) hhour, field?_padded (by decide : 0 < 2) hminute,
    field?_padded (by decide : 0 < 2) hsecond, true_or, if_true,
    fraction?_fractionText hnano, hoffset, hlocal, hzero]
  simp [Text.trimStart, hrange]

end PluginHost.Timestamp
