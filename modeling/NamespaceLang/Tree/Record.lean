import NamespaceLang.Text.Record
import NamespaceLang.Tree

/-!
# Trees as records

The full text of a tree, with every position.
-/

set_option autoImplicit false

namespace NamespaceLang

open Text (Record)

def Position.record (p : Position) : Record :=
  .fields "Position" [("file", .string p.file), ("offset", .number p.offset),
    ("line", .number p.line), ("col", .number p.col)]

def Leaf.record : Leaf → Record
  | .identifier sigil name =>
    .case "Ident" (.fields "Ident" [("text", .string name), ("tag", .word sigil.name)])
  | .whitespace newline =>
    .fields "Whitespace" [("newline", .word (if newline then "true" else "false"))]
  | .operator spelling => .case "Operator" (.string spelling)
  | .text content => .case "StringSegment" (.string content)
  | .bare tag spelling =>
    .case "Raw" (.fields "Raw" [("text", .string spelling), ("tag", .word tag.name)])
  | .error => .word "Error"

def Form.record (items : Record) : Form → Record
  | .segment => .case "Segment" items
  | .block tag opening closing =>
    .case "Block" (.fields "Block" [("open", .string opening), ("close", .string closing),
      ("tag", .word tag.name), ("items", items)])
  | .chain tag tier =>
    .case "Binary" (.fields "Binary" [("tag", .word tag.name), ("tier", .number tier),
      ("items", items)])

namespace Tree

def placed (content : Record) (pos : Position) : Record :=
  .fields "Positioned" [("node", content), ("pos", pos.record)]

mutual

def record : Tree → Record
  | .leaf pos content => placed content.record pos
  | .group pos form items => placed (form.record (.list (recordAll items))) pos

def recordAll : List Tree → List Record
  | [] => []
  | node :: rest => node.record :: recordAll rest

end

end Tree

end NamespaceLang
