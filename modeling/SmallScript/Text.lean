/-! # Texts

* `Text.isBlank` is the Unicode property `White_Space`, 25 code points in all.
* `Text.lines` are the lines of a text.  A line ends at a line feed, which does not belong to it, and a
  carriage return directly before the line feed belongs to the line end as well.  What stands behind the
  last line feed is a line only if it is not empty.
* `Text.compareBytes` orders texts by their UTF-8 encodings, byte by byte.
-/

namespace SmallScript.Text

/-! ## Blanks -/

def isBlank (c : Char) : Bool :=
  let n := c.toNat
  (0x09 ≤ n && n ≤ 0x0D) || n == 0x20 || n == 0x85 || n == 0xA0 || n == 0x1680 ||
    (0x2000 ≤ n && n ≤ 0x200A) || n == 0x2028 || n == 0x2029 || n == 0x202F || n == 0x205F ||
    n == 0x3000

/-- Does at the end of a list what `List.dropWhile` does at its front. -/
def dropEndWhile {α : Type} (p : α → Bool) (xs : List α) : List α :=
  (xs.reverse.dropWhile p).reverse

def trim (text : List Char) : List Char :=
  dropEndWhile isBlank (text.dropWhile isBlank)

def isBlankText (text : List Char) : Bool :=
  text.all isBlank

/-! ## Lines -/

def dropReturn (line : List Char) : List Char :=
  if line.getLast? = some '\r' then line.dropLast else line

def lines (text : List Char) : List (List Char) :=
  if text.isEmpty then []
  else
    match _h : text.dropWhile (· != '\n') with
    | [] => [text]
    | _ :: rest => dropReturn (text.takeWhile (· != '\n')) :: lines rest
termination_by text.length
decreasing_by
  have := (List.dropWhile_sublist (l := text) (· != '\n')).length_le
  rw [_h, List.length_cons] at this
  omega

/-! ## Bytes -/

def bytes (text : String) : List UInt8 :=
  text.toUTF8.data.toList

def compareBytes (a b : String) : Ordering :=
  List.compareLex compare (bytes a) (bytes b)

end SmallScript.Text
