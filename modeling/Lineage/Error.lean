import Lineage.Location

/-! # Errors

What can go wrong in an analysis. `Error.message` is the only place where errors are worded, and
`Error.atLocation` the only one where they are placed: the first known location stays. -/

namespace Lineage

/-- Why values and the places they should go to do not match in number. -/
inductive PairingFault where
  /-- A value arrived after every target had one. -/
  | surplus (targets : Nat)
  /-- A query ended with a number of values other than that of its targets. -/
  | shortfall (values targets : Nat)
  /-- An insert lists a number of values other than that of its columns. -/
  | columns (values columns : Nat) (table : String)
  /-- Any other reason, in words. -/
  | stated (detail : String)
deriving DecidableEq, Repr

/-- What a tree lacks, or where a rule found itself out of place. -/
inductive ShapeFault where
  | rootPopped
  | elementOutsideList
  | operatorOutsideQuery
  | unnamedDeclaration (tag : String)
  | missingReference
  | unnamedCall
  | unnamedQuery
  | loopWithoutRecord
  | insertWithoutTable
  | insertWithoutSource
  /-- Any other reason, in words. -/
  | stated (detail : String)
deriving DecidableEq, Repr

def PairingFault.detail : PairingFault → String
  | surplus targets => s!"more values than the {targets} INTO targets"
  | shortfall values targets => s!"{values} values for {targets} INTO targets"
  | columns values places table => s!"{values} values for {places} columns of {table}"
  | stated detail => detail

def ShapeFault.detail : ShapeFault → String
  | rootPopped => "cannot pop the root frame"
  | elementOutsideList => "select-list element outside a select list"
  | operatorOutsideQuery => "set operation outside a select"
  | unnamedDeclaration tag => s!"<{tag}> declares no name"
  | missingReference => "missing name reference"
  | unnamedCall => "call without a routine name"
  | unnamedQuery => "named subquery without a name"
  | loopWithoutRecord => "loop without a record variable"
  | insertWithoutTable => "insert without a target table"
  | insertWithoutSource => "insert without values or query"
  | stated detail => detail

inductive Error where
  /-- A name that had to exist was not found. -/
  | unresolved (name : String) (location : Location)
  | pairing (fault : PairingFault) (location : Location)
  | shape (fault : ShapeFault) (location : Location)
  /-- No dialect has this name. -/
  | unknownDialect (name : String)
  /-- A text could not be read. -/
  | unreadable (detail : String)
deriving DecidableEq, Repr

namespace Error

/-- The error as shown to the user. -/
def message : Error → String
  | unresolved name location => s!"Unresolved reference `{name}` at {location.display}"
  | pairing fault location => s!"Malformed pairing at {location.display}: {fault.detail}"
  | shape fault location => s!"Unexpected tree shape at {location.display}: {fault.detail}"
  | unknownDialect name => s!"Unknown dialect: {name}"
  | unreadable detail => s!"Parse error: {detail}"

/-- The error with its location filled in, unless it already has one. Errors that concern no node
    stay as they are. -/
def atLocation (error : Error) (place : Location) : Error :=
  match error with
  | unresolved name location => unresolved name (if location.isUnknown then place else location)
  | pairing fault location => pairing fault (if location.isUnknown then place else location)
  | shape fault location => shape fault (if location.isUnknown then place else location)
  | other => other

/-- A pairing error that has no location yet. -/
def mispaired (fault : PairingFault) : Error :=
  pairing fault .unknown

/-- A shape error that has no location yet. -/
def misshapen (fault : ShapeFault) : Error :=
  shape fault .unknown

end Error

end Lineage
