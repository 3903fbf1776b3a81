import TagScope.Syntax.Node
import TagScope.Text.Slice

/-!
A document is a content in bytes with its syntax tree. Trees count in bytes and
reports in characters; the two meet here. Both counts of a prefix come from the
same reading of the bytes, in which an ill-formed sequence is one character.
-/

set_option autoImplicit false

namespace TagScope

/-- A place in a text: lines count from one, columns are characters from zero. -/
structure Position where
  line : Nat
  column : Nat
  endLine : Nat
  endColumn : Nat
deriving DecidableEq, Repr

namespace Bytes

def newline : UInt8 := 10

/-- The number of lines that end before an offset. -/
def row (content : Bytes) (offset : Nat) : Nat :=
  (content.take offset).count newline

/-- The offset just after the last line end before an offset. -/
def lineStart (content : Bytes) (offset : Nat) : Nat :=
  (content.take offset).length -
    ((content.take offset).reverse.takeWhile fun b ↦ b != newline).length

/-- The number of characters before a byte offset. -/
def charsBefore (content : Bytes) (offset : Int) : Nat :=
  Utf8.charCount (Slice.upTo content offset)

/-- The number of characters in the last `width` bytes before an offset. -/
def charsInLast (content : Bytes) (offset width : Int) : Nat :=
  Utf8.charCount (Slice.between content (offset - width) offset)

def line (content : Bytes) (offset : Nat) : Nat :=
  row content offset + 1

def column (content : Bytes) (offset : Nat) : Nat :=
  charsInLast content offset ((offset : Int) - lineStart content offset)

end Bytes

structure Document where
  content : Bytes
  root : Node
deriving Repr

namespace Document

variable (doc : Document)

def bytesOf (n : Node) : Bytes :=
  (doc.content.take n.stop).drop n.start

/-- The text of a node as shown to a reader. -/
def textOf (n : Node) : String :=
  String.ofList (Utf8.decodeReplacing (doc.bytesOf n))

/-- The text of a node as a name: what is ill-formed is no part of it. -/
def nameOf (n : Node) : String :=
  String.ofList (Utf8.decodeDropping (doc.bytesOf n))

def charsBefore (offset : Nat) : Nat :=
  Bytes.charsBefore doc.content offset

def positionOf (n : Node) : Position where
  line := Bytes.line doc.content n.start
  column := Bytes.column doc.content n.start
  endLine := Bytes.line doc.content n.stop
  endColumn := Bytes.column doc.content n.stop

end Document

end TagScope
