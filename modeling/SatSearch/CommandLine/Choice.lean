import SatSearch.Search.Settings

/-!
# Choices by name

The values of an option that takes one of a few names.
-/

namespace SatSearch

structure UnknownName where
  text : String
deriving DecidableEq, Repr

def UnknownName.message (e : UnknownName) : String := "invalid variant: " ++ e.text

/-- Whether two texts agree, perhaps up to the case of ASCII letters. -/
def sameName (ignoreCase : Bool) (a b : String) : Bool :=
  if ignoreCase then a.toList.map Char.toLower == b.toList.map Char.toLower else a == b

def findNamed {α : Type} (name : α → String) (ignoreCase : Bool) (choices : List α)
    (text : String) : Except UnknownName α :=
  match choices.find? fun choice => sameName ignoreCase (name choice) text with
  | some choice => .ok choice
  | none => .error ⟨text⟩

def Reduction.ofName (ignoreCase : Bool) (text : String) : Except UnknownName Reduction :=
  findNamed Reduction.name ignoreCase Reduction.all text

def Selection.ofName (ignoreCase : Bool) (text : String) : Except UnknownName Selection :=
  findNamed Selection.name ignoreCase Selection.all text

end SatSearch
