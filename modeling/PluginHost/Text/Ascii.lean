/-!
ASCII letter case. Names, cultures and file suffixes are compared without regard to the case of
the letters A to Z; every other character stands for itself.
-/

namespace PluginHost.Text

def lower (s : List Char) : List Char :=
  s.map Char.toLower

def lowercase (s : String) : String :=
  String.ofList (lower s.toList)

def SameLetters (a b : String) : Prop :=
  lower a.toList = lower b.toList

instance (a b : String) : Decidable (SameLetters a b) :=
  inferInstanceAs (Decidable (lower a.toList = lower b.toList))

def sameLetters (a b : String) : Bool :=
  decide (SameLetters a b)

def endsWithLetters (s tail : String) : Bool :=
  (lower tail.toList).isSuffixOf (lower s.toList)

@[simp] theorem sameLetters_iff {a b : String} : sameLetters a b = true ↔ SameLetters a b := by
  simp [sameLetters]

@[refl] theorem SameLetters.refl (a : String) : SameLetters a a := rfl

@[symm] theorem SameLetters.symm {a b : String} (h : SameLetters a b) : SameLetters b a :=
  Eq.symm h

theorem SameLetters.trans {a b c : String} (h : SameLetters a b) (k : SameLetters b c) :
    SameLetters a c :=
  Eq.trans h k

end PluginHost.Text
