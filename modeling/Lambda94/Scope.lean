import Lambda94.Avl

/-!
# Scopes

A scope says which binder of the renamed program a numeral of the source refers to.  Binding a
numeral shadows its earlier binding in the new scope and leaves the old scope as it was.
-/

namespace Lambda94

/-- The binders that the numerals of the source refer to. -/
abbrev Scope := Avl Int

namespace Scope

/-- The scope outside every function. -/
def empty : Scope := Avl.empty

/-- The scope inside a function that was written with `numeral` and renamed to `binder`. -/
def bind (scope : Scope) (numeral binder : Int) : Scope := scope.insert numeral binder

/-- The binder that `numeral` refers to. -/
def lookup? (scope : Scope) (numeral : Int) : Option Int := scope.find? numeral

end Scope

end Lambda94
