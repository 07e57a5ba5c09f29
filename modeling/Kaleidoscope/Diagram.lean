import Kaleidoscope.Text.Lowercase
import Kaleidoscope.Text.Quoted

/-! Diagrams and their DOT text. A diagram is a row of clusters; each holds its nodes, numbered
throughout the diagram, and the edges between them. -/

set_option autoImplicit false

namespace Kaleidoscope

namespace Dot

/-- Is there a `>` at the end, or just before a final line feed? -/
def closesMarkup : List Char → Bool
  | [] => false
  | ['>'] => true
  | ['>', '\n'] => true
  | _ :: cs => closesMarkup cs

def isMarkup : List Char → Bool
  | '<' :: cs => closesMarkup cs
  | _ => false

def isNameStart (c : Char) : Bool := c.isAlpha || c == '_'

def isNamePart (c : Char) : Bool := c.isAlphanum || c == '_'

def isName : List Char → Bool
  | [] => false
  | c :: cs => isNameStart c && cs.all isNamePart

def isUnsigned (cs : List Char) : Bool :=
  let whole := cs.takeWhile Char.isDigit
  match cs.drop whole.length with
  | [] => !whole.isEmpty
  | '.' :: fraction => fraction.all Char.isDigit && !(whole.isEmpty && fraction.isEmpty)
  | _ => false

def isNumber : List Char → Bool
  | '-' :: cs => isUnsigned cs
  | cs => isUnsigned cs

/-- A line feed at the very end does not count. -/
def dropFinalNewline : List Char → List Char
  | [] => []
  | ['\n'] => []
  | c :: cs => c :: dropFinalNewline cs

def keywords : List String := ["node", "edge", "graph", "digraph", "subgraph", "strict"]

def isKeyword (cs : List Char) : Bool :=
  keywords.contains (String.ofList (cs.map Char.toLower))

/-- Puts a backslash before every quote that has none: one preceded by an even run of them. -/
def escapeQuotes (afterOdd : Bool) : List Char → List Char
  | [] => []
  | c :: cs =>
    if c = '\\' then c :: escapeQuotes (!afterOdd) cs
    else if c = '"' ∧ ¬ afterOdd then '\\' :: c :: escapeQuotes false cs
    else c :: escapeQuotes false cs

/-- A name, a number or markup is bare; any other value stands in quotes. -/
def value (s : String) : String :=
  let cs := s.toList
  let core := dropFinalNewline cs
  if isMarkup cs then s
  else if (isName core || isNumber core) && !isKeyword cs then s
  else String.ofList ('"' :: escapeQuotes false cs ++ ['"'])

end Dot

inductive DiagramItem where
  | node (id : Nat) (label : String)
  | edge (parent child : Nat) (role : String)
  deriving DecidableEq, Repr

structure Cluster where
  title : String
  items : List DiagramItem
  deriving DecidableEq, Repr

structure Diagram where
  clusters : List Cluster
  deriving DecidableEq, Repr

def DiagramItem.line : DiagramItem → String
  | .node id label => s!"\t\tn{id} [label={Dot.value label}]"
  | .edge parent child role => s!"\t\tn{parent} -> n{child} [label={Dot.value role}]"

def Cluster.lines (index : Nat) (c : Cluster) : List String :=
  [s!"\tsubgraph cluster_{index} \x7b",
   s!"\t\tcolor=gray label={Dot.value c.title} style=rounded"] ++
    c.items.map DiagramItem.line ++ ["\t\x7d"]

namespace Diagram

def clusterLines (index : Nat) : List Cluster → List String
  | [] => []
  | c :: cs => c.lines index ++ clusterLines (index + 1) cs

def lines (d : Diagram) : List String :=
  ["digraph \x7b", "\tgraph [rankdir=TB]", "\tnode [fontname=Helvetica fontsize=10 shape=box]"] ++
    clusterLines 0 d.clusters ++ ["\x7d"]

def text (d : Diagram) : String := String.join (d.lines.map (· ++ "\n"))

end Diagram

def diagramFormats : List String :=
  ["bmp", "canon", "cgimage", "cmap", "cmapx", "cmapx_np", "dot", "dot_json", "eps", "exr", "fig",
   "gd", "gd2", "gif", "gtk", "gv", "ico", "imap", "imap_np", "ismap", "jp2", "jpe", "jpeg", "jpg",
   "json", "json0", "pct", "pdf", "pic", "pict", "plain", "plain-ext", "png", "pov", "ps", "ps2",
   "psd", "sgi", "svg", "svg_inline", "svgz", "tga", "tif", "tiff", "tk", "vml", "vmlz", "vrml",
   "wbmp", "webp", "x11", "xdot", "xdot1.2", "xdot1.4", "xdot_json", "xlib"]

structure UnknownFormat where
  format : String
  deriving DecidableEq, Repr

def UnknownFormat.message (e : UnknownFormat) : String :=
  let known := ", ".intercalate (diagramFormats.map Text.quoted)
  s!"unknown format: {Text.quoted e.format} (must be one of [{known}])"

/-- Formats are told apart in lower case. -/
def readFormat (format : String) : Except UnknownFormat String :=
  let format := Text.lowercase format
  if diagramFormats.contains format then .ok format else .error ⟨format⟩

end Kaleidoscope
