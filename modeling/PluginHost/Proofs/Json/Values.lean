import PluginHost.Proofs.Collection
import PluginHost.Proofs.Json.RoundTrip
import PluginHost.Proofs.TimestampText
import PluginHost.Proofs.UuidText

/-!
Typed values read back from the documents that write them.
-/

namespace PluginHost.Json

/-! Natural numbers. -/

theorem le_ofDigitChars (s : List Char) (start : Nat) : start ≤ Nat.ofDigitChars 10 s start := by
  induction s generalizing start with
  | nil => exact Nat.le_refl start
  | cons c s ih =>
      rw [Nat.ofDigitChars_cons]
      exact Nat.le_trans (by omega) (ih _)

theorem Numeral.gather_eq {s : List Char} {start : Nat}
    (h : Nat.ofDigitChars 10 s start < wordLimit) :
    gather start s = (Nat.ofDigitChars 10 s start, []) := by
  induction s generalizing start with
  | nil => rfl
  | cons c s ih =>
      rw [Nat.ofDigitChars_cons] at h ⊢
      have hnext : 10 * start + digitOf c < wordLimit :=
        Nat.lt_of_le_of_lt (le_ofDigitChars s _) h
      simp only [gather, if_pos hnext]
      exact ih h

theorem head?_toDigits {n : Nat} (h : n ≠ 0) : (Nat.toDigits 10 n).head? ≠ some '0' := by
  induction n using Nat.strongRecOn with
  | ind n ih =>
      by_cases hsmall : n < 10
      · rw [Nat.toDigits_of_lt_base hsmall]
        have hall : ∀ k : Fin 10, k.val ≠ 0 → [Nat.digitChar k].head? ≠ some '0' := by decide
        exact hall ⟨n, hsmall⟩ h
      · have hmore : n / 10 ≠ 0 := by omega
        have hdigit : n % 10 < 10 := Nat.mod_lt n (by decide)
        have hsplit : Nat.toDigits 10 (n / 10) ++ Nat.toDigits 10 (n % 10) =
            Nat.toDigits 10 n := by
          rw [Nat.toDigits_append_toDigits (by decide) (by omega) hdigit, Nat.div_add_mod]
        have hfirst := ih (n / 10) (by omega) hmore
        rw [← hsplit, List.head?_append]
        cases hhead : (Nat.toDigits 10 (n / 10)).head? with
        | none => exact absurd (List.head?_eq_none_iff.mp hhead) Nat.toDigits_ne_nil
        | some c => simpa [hhead] using hfirst

def Numeral.ofNat (n : Nat) : Numeral :=
  ⟨false, Nat.toDigits 10 n, [], none, false⟩

theorem Numeral.proper_ofNat (n : Nat) : (ofNat n).Proper where
  whole := Nat.toDigits_ne_nil
  wholeDigits _ := Nat.isDigit_of_mem_toDigits (by decide) (by decide)
  leading := by
    intro hzero
    by_cases hn : n = 0
    · rw [hn]
      rfl
    · exact absurd hzero (head?_toDigits hn)
  fraction _ h := by cases h
  exponent _ _ h := by cases h
  floating := rfl

theorem whole_ofNat (n : Nat) : (Document.ofNat n).Whole :=
  .number (Numeral.proper_ofNat n)

theorem nat32_ofNat {n : Nat} (h : n < UInt32.size) : nat32 (.ofNat n) = .ok n := by
  have hvalue : Nat.ofDigitChars 10 (Nat.toDigits 10 n) 0 = n := Nat.ofDigitChars_ten_toDigits
  have hword : Nat.ofDigitChars 10 (Nat.toDigits 10 n) 0 < Numeral.wordLimit := by
    rw [hvalue]
    exact Nat.lt_trans h (by decide)
  have hread : (Numeral.ofNat n).read? = some (.natural n) := by
    simp [Numeral.read?, Numeral.ofNat, Numeral.gather_eq hword, hvalue]
  unfold Numeral.ofNat at hread
  simp only [nat32, Document.ofNat, hread, if_pos h]

/-! Texts. -/

theorem textAs_ofString (expected value : String) :
    textAs expected (.ofString value) = .ok value :=
  rfl

theorem textVia_ofString {α : Type} (expected value : String)
    (read : String → Except DecodeError α) :
    textVia expected read (.ofString value) = read value :=
  rfl

theorem uuidOf_text (id : Uuid) : uuidOf id.text = .ok id := by
  simp [uuidOf]

theorem uuid_text (id : Uuid) : uuid (.ofString id.text) = .ok id := by
  rw [uuid, textVia_ofString, uuidOf_text]

theorem timestampOf_text {time : Timestamp} (h : time.Valid) :
    timestampOf time.text = .ok time := by
  simp [timestampOf, h.parse?_text]

theorem optional_ofOption {α : Type} {decode : Decoder α} {write : α → String} {value : Option α}
    (h : ∀ v, value = some v → decode (.ofString (write v)) = .ok v) :
    optional decode (.ofOption (fun v => .ofString (write v)) value) = .ok value := by
  cases value with
  | none => rfl
  | some v =>
      have hread : optional decode (.ofString (write v)) =
          (decode (.ofString (write v))).map some := rfl
      rw [Document.ofOption, hread, h v rfl]
      rfl

theorem optional_timestamp {time : Option Timestamp} (h : ∀ t, time = some t → t.Valid) :
    optional timestamp (.ofOption (fun t => .ofString t.text) time) = .ok time :=
  optional_ofOption fun t ht => by rw [timestamp, textVia_ofString, timestampOf_text (h t ht)]

/-! Lists, sets and maps. -/

theorem list_ofList {α : Type} {decode : Decoder α} {write : α → Document}
    (h : ∀ value, decode (write value) = .ok value) (values : List α) :
    list decode (.ofList (values.map write)) = .ok values := by
  have hitems : (values.map write).mapM decode = .ok values := by
    induction values with
    | nil => rfl
    | cons value values ih =>
        rw [List.map_cons, List.mapM_cons, h, ih]
        rfl
  simp only [list, Document.ofList, hitems]
  rfl

theorem set_ofList {κ : Type} [Ord κ] [Std.TransOrd κ] {decode : Decoder κ}
    {write : κ → Document} (h : ∀ key, decode (write key) = .ok key) (keys : SortedSet κ) :
    set decode (.ofList ((SortedSet.toList keys).map write)) = .ok keys := by
  rw [set, list_ofList h]
  exact congrArg Except.ok (SortedSet.ofList_toList keys)

theorem map_ofMembers {κ υ : Type} [Ord κ] [Std.TransOrd κ]
    {key : String → Except DecodeError κ} {value : Decoder υ} {name : κ → String}
    {write : υ → Document} (hkey : ∀ k, key (name k) = .ok k)
    (hvalue : ∀ v, value (write v) = .ok v) (entries : SortedMap κ υ) :
    map key value (.ofMembers (entries.entries.map fun entry => (name entry.1, write entry.2))) =
      .ok entries := by
  have hmembers : ∀ (pairs : List (κ × υ)) (start : SortedMap κ υ),
      decodeMembers key value start
          ((pairs.map fun entry => (name entry.1, write entry.2)).map fun member =>
            (Str.of member.1, member.2)) =
        .ok (pairs.foldl (fun map entry => map.insert entry.1 entry.2) start) := by
    intro pairs
    induction pairs with
    | nil => exact fun _ => rfl
    | cons entry pairs ih =>
        intro start
        have hname : (Str.of (name entry.1)).get = .ok (name entry.1) := rfl
        simp only [List.map_cons, decodeMembers, hname, hkey, hvalue, bind, Except.bind, ih]
        rfl
  simp only [map, Document.ofMembers, hmembers]
  exact congrArg Except.ok (SortedMap.ofList_entries entries)

theorem map_named {υ : Type} {value : Decoder υ} {write : υ → Document}
    (hvalue : ∀ v, value (write v) = .ok v) (entries : SortedMap String υ) :
    map Except.ok value (.ofMembers (entries.entries.map fun entry => (entry.1, write entry.2))) =
      .ok entries :=
  @map_ofMembers _ _ _ _ Except.ok _ id _ (fun _ => rfl) hvalue entries

/-! Documents that are whole. -/

theorem whole_ofString (value : String) : (Document.ofString value).Whole :=
  .string value

theorem whole_ofOption {α : Type} {write : α → Document} (h : ∀ value, (write value).Whole)
    (value : Option α) : (Document.ofOption write value).Whole := by
  cases value with
  | none => exact .null
  | some value => exact h value

theorem whole_ofList {items : List Document} (h : ∀ item ∈ items, item.Whole) :
    (Document.ofList items).Whole :=
  .array h

theorem whole_texts (values : List String) : (Document.ofList (values.map .ofString)).Whole := by
  apply whole_ofList
  intro item hitem
  obtain ⟨value, -, rfl⟩ := List.mem_map.mp hitem
  exact whole_ofString value

theorem whole_ofMembers {members : List (String × Document)}
    (h : ∀ member ∈ members, member.2.Whole) : (Document.ofMembers members).Whole := by
  refine .object (fun member hmember => ?_) fun member hmember => ?_
  · obtain ⟨pair, -, rfl⟩ := List.mem_map.mp hmember
    rfl
  · obtain ⟨pair, hpair, rfl⟩ := List.mem_map.mp hmember
    exact h pair hpair

end PluginHost.Json
