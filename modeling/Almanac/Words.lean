/-!
# Words

Words are separated by blanks, the characters of the Unicode property White_Space. It has 25 code
points; the zero width space and the byte order mark are not among them.

- `words`: the words of a text.
-/
namespace Almanac

def isBlank (c : Char) : Bool :=
  let n := c.toNat
  (0x09 ≤ n && n ≤ 0x0D) || n == 0x20 || n == 0x85 || n == 0xA0 || n == 0x1680 ||
    (0x2000 ≤ n && n ≤ 0x200A) || n == 0x2028 || n == 0x2029 || n == 0x202F || n == 0x205F ||
    n == 0x3000

/-- The words of a text, in order. -/
def words (text : List Char) : List (List Char) :=
  (text.splitOnP isBlank).filter (· ≠ [])

end Almanac
