/-!
# Sizes in bytes

Positions in error messages count the bytes of the UTF-8 form of a text, and a text can be cut at
a number of bytes.

## Main Definitions

* `byteSize` — how many bytes a text has
* `takeBytes` — the beginning of a text within a number of bytes
-/

namespace TransferRules.Text

/-- The number of bytes of the UTF-8 form of a list of characters. -/
def byteSize : List Char → Nat
  | [] => 0
  | c :: cs => c.utf8Size + byteSize cs

@[simp] theorem byteSize_nil : byteSize [] = 0 := rfl

@[simp] theorem byteSize_cons (c : Char) (cs : List Char) :
    byteSize (c :: cs) = c.utf8Size + byteSize cs := rfl

/-- The longest beginning of a list of characters that has at most `size` bytes. -/
def takeBytes (size : Nat) : List Char → List Char
  | [] => []
  | c :: cs => if c.utf8Size ≤ size then c :: takeBytes (size - c.utf8Size) cs else []

end TransferRules.Text
