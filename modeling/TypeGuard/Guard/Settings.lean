/-!
# Settings of a guard file
-/

namespace TypeGuard

structure Settings where
  /-- How deep a type may nest; the root has depth zero. -/
  maxDepth : Nat
  /-- Whether each object ends with a constant that spells out its type. -/
  selfChecks : Bool
  /-- The module that the aliases are imported from. -/
  importFrom : String
  /-- What a guard's name puts before the alias. -/
  stem : String
  deriving DecidableEq, Repr

namespace Settings

def standard : Settings := ⟨100, true, "./types", "is"⟩

def guardName (settings : Settings) (aliasName : String) : String := settings.stem ++ aliasName

theorem toList_guardName {settings : Settings} (hstem : settings.stem = "is")
    (aliasName : String) :
    (settings.guardName aliasName).toList = 'i' :: 's' :: aliasName.toList := by
  simp [guardName, hstem]

end Settings

end TypeGuard
