import PluginHost.Proofs.Text
import PluginHost.Uuid

/-!
An identifier is read back from its text: the digits make up its bits again, and the hyphens stand
where they are looked for.
-/

namespace PluginHost.Uuid

/-! Digits. -/

/-- The last `count` hexadecimal digits of a number, the most significant first. -/
def places (n count : Nat) : List Nat :=
  (List.range count).map fun k => n / Nat.pow 16 (count - 1 - k) % 16

theorem places_succ (n count : Nat) :
    places n (count + 1) = n / Nat.pow 16 count % 16 :: places n count := by
  unfold places
  rw [List.range_succ_eq_map, List.map_cons, List.map_map]
  congr 1
  apply List.map_congr_left
  intro k _
  have hplace : count + 1 - 1 - (k + 1) = count - 1 - k := by omega
  simp only [Function.comp_apply, Nat.succ_eq_add_one, hplace]

theorem foldl_places (n count start : Nat) :
    (places n count).foldl (fun value place => 16 * value + place) start =
      Nat.pow 16 count * start + n % Nat.pow 16 count := by
  change _ = 16 ^ count * start + n % 16 ^ count
  induction count generalizing start with
  | zero => simp [places, Nat.mod_one]
  | succ count ih =>
      have hplace : Nat.pow 16 count = 16 ^ count := rfl
      rw [places_succ, List.foldl_cons, ih, hplace, Nat.pow_succ, Nat.mod_mul, Nat.mul_add]
      simp only [Nat.mul_assoc]
      omega

theorem digits_eq (u : Uuid) : u.digits = (places u.number 32).map Text.Hex.digit := by
  unfold digits places
  rw [List.map_map]
  rfl

theorem length_digits (u : Uuid) : u.digits.length = 32 := by
  simp [digits]

theorem digitValue?_digit {n : Nat} (h : n < 16) : digitValue? (Text.Hex.digit n) = some n := by
  have hall : ∀ k : Fin 16, digitValue? (Text.Hex.digit k) = some k.val := by decide
  exact hall ⟨n, h⟩

theorem mapM_digitValue? {values : List Nat} (h : ∀ value ∈ values, value < 16) :
    (values.map Text.Hex.digit).mapM digitValue? = some values := by
  induction values with
  | nil => rfl
  | cons value values ih =>
      obtain ⟨hvalue, hvalues⟩ := List.forall_mem_cons.mp h
      rw [List.map_cons, List.mapM_cons, digitValue?_digit hvalue, ih hvalues]
      rfl

theorem ofDigits?_digits (u : Uuid) : ofDigits? u.digits = some u := by
  have hsmall : ∀ value ∈ places u.number 32, value < 16 := by
    intro value hvalue
    obtain ⟨k, -, rfl⟩ := List.mem_map.mp hvalue
    exact Nat.mod_lt _ (by decide)
  have hnumber : u.number < Nat.pow 16 32 := u.bits.isLt
  unfold ofDigits?
  rw [if_pos (length_digits u), digits_eq, mapM_digitValue? hsmall, Option.map_some,
    foldl_places, Nat.mod_eq_of_lt hnumber, Nat.mul_zero, Nat.zero_add]
  cases u
  simp [ofNat, number]

/-! Hyphens. -/

theorem dehyphenate?_hyphenate {lengths : List Nat} (hne : lengths ≠ []) {s : List Char}
    (h : s.length = lengths.foldr (· + ·) 0) :
    dehyphenate? lengths (hyphenate lengths s) = some s := by
  induction lengths generalizing s with
  | nil => exact absurd rfl hne
  | cons n rest ih =>
      cases rest with
      | nil =>
          have hlength : s.length = n := by simpa using h
          simp [hyphenate, dehyphenate?, ← hlength]
      | cons m more =>
          have hlong : n ≤ s.length := by
            rw [h, List.foldr_cons]
            omega
          have htake : (s.take n).length = n := by simp [hlong]
          have hdrop : (s.drop n).length = (m :: more).foldr (· + ·) 0 := by
            rw [List.length_drop, h, List.foldr_cons]
            omega
          have hrest := ih (by simp) hdrop
          simp only [hyphenate, dehyphenate?]
          rw [List.drop_left' htake, List.take_left' htake]
          simp only [hrest, Option.map_some, List.take_append_drop]

theorem length_hyphenate {s : List Char} (h : s.length = 32) :
    (hyphenate groups s).length = 36 := by
  simp only [groups, hyphenate, List.length_append, List.length_cons, List.length_take,
    List.length_drop, h]
  decide

theorem length_text (u : Uuid) : u.text.toList.length = 36 := by
  rw [text, String.toList_ofList]
  exact length_hyphenate (length_digits u)

theorem unwrap_of_length {s : List Char} (h : s.length = 36) : unwrap s = s := by
  simp [unwrap, h]

@[simp] theorem parse?_text (u : Uuid) : parse? u.text = some u := by
  have hlength : (hyphenate groups u.digits).length = 36 := length_hyphenate (length_digits u)
  have hplain : ofDigits? (hyphenate groups u.digits) = none := by simp [ofDigits?, hlength]
  have hgroups : dehyphenate? groups (hyphenate groups u.digits) = some u.digits :=
    dehyphenate?_hyphenate (by decide) (length_digits u)
  simp only [parse?, text, String.toList_ofList, hplain, unwrap_of_length hlength, hgroups,
    Option.bind_some, ofDigits?_digits]

theorem text_injective {a b : Uuid} (h : a.text = b.text) : a = b := by
  have hread := parse?_text a
  rw [h, parse?_text] at hread
  exact (Option.some.inj hread).symm

end PluginHost.Uuid
