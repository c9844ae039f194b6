import WireModel.Reference.Tree
import WireModel.Text.Lines

/-!
# The reference in HTML

A complete page. All text is escaped where it is put between tags or into an attribute.
-/

namespace WireModel.Reference.Html

/-- One character of text, with an entity for each that has a meaning. -/
def escapeChar (c : Char) : List Char :=
  if c = '&' then "&amp;".toList
  else if c = '<' then "&lt;".toList
  else if c = '>' then "&gt;".toList
  else if c.toNat = 34 then "&quot;".toList
  else if c.toNat = 39 then "&#39;".toList
  else [c]

def escape (s : String) : String := String.ofList (s.toList.flatMap escapeChar)

/-- An element around content that is markup already. -/
def element (tag content : String) : String := "<" ++ tag ++ ">" ++ content ++ "</" ++ tag ++ ">"

/-- An element with one attribute, whose value is text. -/
def elementWith (tag key value content : String) : String :=
  "<" ++ tag ++ " " ++ key ++ "=\"" ++ value ++ "\">" ++ content ++ "</" ++ tag ++ ">"

def span : Span → String
  | .text s => escape s
  | .code s => element "code" (escape s)
  | .link s anchor isCode =>
    elementWith "a" "href" ("#" ++ escape anchor)
      (if isCode then element "code" (escape s) else escape s)
  | .target anchor => elementWith "a" "id" (escape anchor) ""

def spans (content : Spans) : String := String.join (content.map span)

def row (cells : List Spans) : String :=
  element "tr" (String.join (cells.map fun cell => element "td" (spans cell)))

def block : Block → String
  | .heading level text anchor =>
    elementWith ("h" ++ toString level) "id" (escape anchor) (escape text)
  | .paragraph content => element "p" (spans content)
  | .list items => element "ul" (String.join (items.map fun item => element "li" (spans item)))
  | .table header rows =>
    element "table"
      (element "thead"
          (element "tr" (String.join (header.map fun h => element "th" (escape h))))
        ++ element "tbody" (String.join (rows.map row)))

/-- A rule of the style sheet. -/
def rule (selector declarations : String) : String :=
  selector ++ "\x7b" ++ declarations ++ "\x7d\n"

def styles : String :=
  rule "body" ("font-family:system-ui,Segoe UI,sans-serif;margin:0;padding:2rem;"
      ++ "background:#f7f7f8;color:#111")
  ++ rule "main" ("max-width:60rem;margin:0 auto;background:#fff;border-radius:0.75rem;"
      ++ "padding:1.5rem 2rem;box-shadow:0 1px 4px rgba(15,23,42,.08)")
  ++ rule "h1" "margin:0 0 .5rem 0;font-size:2rem"
  ++ rule "h2" "margin-top:2.5rem;border-bottom:1px solid #e5e7eb;padding-bottom:.25rem"
  ++ rule "h3" "margin-top:2rem"
  ++ rule "table" "width:100%;border-collapse:collapse;margin-top:0.5rem"
  ++ rule "th,td" ("border:1px solid #e5e7eb;padding:0.5rem;text-align:left;font-size:0.9rem;"
      ++ "vertical-align:top")
  ++ rule "code" "background:#f1f5f9;padding:0 .2rem;border-radius:.25rem;font-size:.85rem"
  ++ rule "ul" "padding-left:1.25rem"

/-- The page. -/
def render (tree : Tree) : String :=
  Text.unlines
    (["<!DOCTYPE html>", "<html lang=\"en\">", "<head>", "  <meta charset=\"utf-8\" />",
      "  " ++ element "title" (escape tree.title), "  " ++ element "style" styles, "</head>",
      "<body>", "  <main>",
      Text.unlines (tree.blocks.map fun b => "    " ++ block b),
      "  </main>", "</body>", "</html>"])

end WireModel.Reference.Html
