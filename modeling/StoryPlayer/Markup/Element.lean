import StoryPlayer.Table
import StoryPlayer.Markup.Location

/-! The elements of a document.  An element holds its child elements and, as one text, the source of
its whole content. -/

namespace StoryPlayer.Markup

/-- An element: its name and attributes without name spaces, the elements in it, the source from its
first node to its last, and the source span from its start tag to its end tag. -/
structure Element where
  name : String
  attributes : Table String
  children : List Element
  markup : String
  span : Span
  deriving Inhabited, Repr

namespace Element

/-- The value of an attribute. -/
def attr? (e : Element) (name : String) : Option String := e.attributes.get? name

/-- The value of the attribute `id`. -/
def id? (e : Element) : Option String := e.attr? "id"

mutual

/-- The element, which lies at `depth`, and all elements below it with their depths, in document
order. -/
def outline (depth : Nat) : Element → List (Nat × Element)
  | ⟨name, attributes, children, markup, span⟩ =>
    (depth, ⟨name, attributes, children, markup, span⟩) :: outlineAll (depth + 1) children

/-- The outlines of elements that lie at `depth`, one after the other. -/
def outlineAll (depth : Nat) : List Element → List (Nat × Element)
  | [] => []
  | e :: rest => outline depth e ++ outlineAll depth rest

end

/-- The element and all elements below it, in document order. -/
def preorder (e : Element) : List Element := (e.outline 0).map Prod.snd

theorem outline_eq (depth : Nat) (e : Element) :
    outline depth e = (depth, e) :: outlineAll (depth + 1) e.children := by
  cases e
  rw [outline]

mutual

/-- The elements of an outline do not depend on the depth at which it begins. -/
theorem map_snd_outline (depth other : Nat) :
    ∀ e : Element, (outline depth e).map Prod.snd = (outline other e).map Prod.snd
  | ⟨_, _, children, _, _⟩ => by
    rw [outline, outline, List.map_cons, List.map_cons,
      map_snd_outlineAll (depth + 1) (other + 1) children]

theorem map_snd_outlineAll (depth other : Nat) :
    ∀ elements : List Element,
      (outlineAll depth elements).map Prod.snd = (outlineAll other elements).map Prod.snd
  | [] => rfl
  | e :: rest => by
    rw [outlineAll, outlineAll, List.map_append, List.map_append, map_snd_outline depth other e,
      map_snd_outlineAll depth other rest]

end

theorem preorder_eq (e : Element) : e.preorder = e :: e.children.flatMap preorder := by
  have hbelow : ∀ elements : List Element,
      (outlineAll 0 elements).map Prod.snd = elements.flatMap preorder := by
    intro elements
    induction elements with
    | nil => rfl
    | cons first rest ih => rw [outlineAll, List.map_append, ih, List.flatMap_cons, preorder]
  rw [preorder, outline_eq, List.map_cons, map_snd_outlineAll (0 + 1) 0, hbelow]

theorem self_mem_preorder (e : Element) : e ∈ e.preorder := by
  rw [preorder_eq]
  exact List.mem_cons_self

end Element

end StoryPlayer.Markup
