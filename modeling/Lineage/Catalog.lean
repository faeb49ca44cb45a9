import Std.Data.TreeMap
import Lineage.Graph

/-! # Catalogs

The names declared in one frame. `order` lists the declared bindings, first to last; `byName` finds
those of one name without a search through all of them, in the same order. -/

namespace Lineage

structure Catalog where
  byName : Std.TreeMap String (List BindingId)
  order : List BindingId

namespace Catalog

def empty : Catalog := ⟨∅, []⟩

instance : Inhabited Catalog := ⟨empty⟩

def contains (catalog : Catalog) (id : BindingId) : Bool :=
  catalog.order.contains id

/-- The ids declared under an exact name, first to last. -/
def named (catalog : Catalog) (name : String) : List BindingId :=
  catalog.byName.getD name []

/-- Declares a binding under its name. A second declaration of the same binding changes nothing. -/
def add (catalog : Catalog) (graph : Graph) (id : BindingId) : Catalog :=
  if catalog.contains id then catalog
  else
    let name := graph.name id
    ⟨catalog.byName.insert name (catalog.named name ++ [id]), catalog.order ++ [id]⟩

/-- The binding declared last among those with the exact name and an accepted kind. -/
def lookup? (catalog : Catalog) (graph : Graph) (name : String) (accepts : Binding.Kind → Bool) :
    Option BindingId :=
  (catalog.named name).reverse.find? fun id => accepts (graph.kind id)

end Catalog

end Lineage
