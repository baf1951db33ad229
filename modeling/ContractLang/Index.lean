/-!
# Names of nodes and scopes

The nodes of a compilation unit are numbered in the order of their creation, and
so are its scopes. All links between them are such numbers.
-/

namespace ContractLang

/-- The number of a node. -/
abbrev NodeId := Nat

/-- The number of a scope. -/
abbrev ScopeId := Nat

end ContractLang
