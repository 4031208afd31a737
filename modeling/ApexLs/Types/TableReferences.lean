import ApexLs.Resolution.PreferredTypes

/-! References as a symbol table lists them, with the nodes of the chains among them. -/
namespace ApexLs.Types

open ApexLs.Resolution (ReferenceContext)

inductive ReferenceAccess where
  | read | write | readwrite
  deriving DecidableEq, Repr

structure ReferenceNode where
  name : String
  location : SymbolLocation
  context : ReferenceContext
  access : Option ReferenceAccess := none
  resolvedSymbolId : Option String := none
  deriving DecidableEq, Repr

structure TableReference extends ReferenceNode where
  chainNodes : Option (List ReferenceNode) := none
  stepped : chainNodes ≠ some [] := by simp
  deriving DecidableEq

namespace ReferenceNode

def isWrite (n : ReferenceNode) : Bool := n.access = some .write || n.access = some .readwrite

def sameStart (a b : ReferenceNode) : Bool :=
  a.location.identifierRange.startLine = b.location.identifierRange.startLine &&
    a.location.identifierRange.startColumn = b.location.identifierRange.startColumn

end ReferenceNode

namespace TableReference

theorem unchained : (none : Option (List ReferenceNode)) ≠ some [] := by simp

def target (r : TableReference) : ReferenceNode := (r.chainNodes.bind List.getLast?).getD r.toReferenceNode

end TableReference
end ApexLs.Types
