/-!
# The reference as a tree

The reference of a model before it is rendered: blocks of text, with links inside the document.
A link leads to an anchor, which belongs to a heading or to a target in the text.
-/

namespace WireModel.Reference

/-- A piece of running text. -/
inductive Span where
  | text (text : String)
  | code (text : String)
  /-- A link to an anchor; its label may be code. -/
  | link (text : String) (anchor : String) (isCode : Bool)
  /-- A place that links can lead to. -/
  | target (anchor : String)
  deriving DecidableEq, Repr

abbrev Spans := List Span

inductive Block where
  | heading (level : Nat) (text : String) (anchor : String)
  | paragraph (content : Spans)
  | list (items : List Spans)
  | table (header : List String) (rows : List (List Spans))
  deriving DecidableEq, Repr

structure Tree where
  title : String
  blocks : List Block
  deriving DecidableEq, Repr

end WireModel.Reference
