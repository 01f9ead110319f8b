/-!
# Classes of bytes

A byte stands for the character of the same code, from U+0000 to U+00FF. The classes below are the
ones a rule file can name: the letters that open an identifier, the further characters that may
continue one, and the separators.
-/

namespace TableLexer

/-- All 256 bytes in ascending order. -/
def allBytes : List UInt8 := (List.range 256).map Nat.toUInt8

/-- There are 256 bytes. -/
theorem length_allBytes : allBytes.length = 256 := by simp [allBytes]

/-- No byte is left out. -/
theorem mem_allBytes (b : UInt8) : b ∈ allBytes := by
  have hb : b.toNat < 256 := b.toNat_lt
  exact List.mem_map.mpr ⟨b.toNat, List.mem_range.mpr hb, UInt8.ofNat_toNat⟩

/-- The bytes are strictly ascending. -/
theorem pairwise_allBytes : allBytes.Pairwise (· < ·) := by
  rw [allBytes, List.pairwise_map]
  refine List.Pairwise.imp_of_mem ?_ List.pairwise_lt_range
  intro m n hm hn hlt
  simp only [List.mem_range] at hm hn
  rw [UInt8.lt_iff_toNat_lt]
  simp
  omega

namespace ByteClass

/-- Whether a byte lies in one of the given closed ranges. -/
def inRanges (ranges : List (UInt8 × UInt8)) (b : UInt8) : Bool :=
  ranges.any fun range => range.1 ≤ b && b ≤ range.2

/-- The characters that may open an identifier: the dollar sign, the ASCII letters, the underscore,
the currency signs and the letters of the upper half. -/
def letterRanges : List (UInt8 × UInt8) :=
  [(0x24, 0x24), (0x41, 0x5A), (0x5F, 0x5F), (0x61, 0x7A), (0xA2, 0xA5), (0xAA, 0xAA), (0xB5, 0xB5),
    (0xBA, 0xBA), (0xC0, 0xD6), (0xD8, 0xF6), (0xF8, 0xFF)]

/-- The characters that may continue an identifier without being able to open one: the control
characters that identifiers ignore, the ASCII digits and the soft hyphen. -/
def continuingRanges : List (UInt8 × UInt8) :=
  [(0x00, 0x08), (0x0E, 0x1B), (0x30, 0x39), (0x7F, 0x9F), (0xAD, 0xAD)]

/-- Whether a byte may open an identifier. -/
def isLetter (b : UInt8) : Bool := inRanges letterRanges b

/-- Whether a byte may stand in an identifier at any place. -/
def isLetterOrDigit (b : UInt8) : Bool := isLetter b || inRanges continuingRanges b

/-- Whether a byte may stand in an identifier, but not open it. -/
def isDigitLike (b : UInt8) : Bool := isLetterOrDigit b && !isLetter b

/-- The separators: brackets, punctuation, the space and the signs of operators. -/
def separators : List UInt8 :=
  [0x28, 0x29, 0x7B, 0x7D, 0x5B, 0x5D, 0x3B, 0x2C, 0x2E, 0x20, 0x2F, 0x3D, 0x3E, 0x3C, 0x21, 0x7E,
    0x3F, 0x3A, 0x26, 0x7C, 0x2B, 0x2D, 0x2A, 0x5E, 0x25]

/-- Whether a byte is a separator. -/
def isSeparator (b : UInt8) : Bool := separators.contains b

/-- The bytes that a rule file writes by name, because a field of it cannot hold them or would hide
them. -/
def named? (name : String) : Option UInt8 :=
  [("LF", 10), ("FF", 12), ("CR", 13), ("space", 32), ("HT", 9), ("VT", 11), ("BS", 8)].lookup name

/-- No byte that opens an identifier is among those that only continue one. -/
theorem isDigitLike_eq (b : UInt8) : isDigitLike b = inRanges continuingRanges b := by
  have h : ∀ b ∈ allBytes, isDigitLike b = inRanges continuingRanges b := by decide +kernel
  exact h b (mem_allBytes b)

end ByteClass

end TableLexer
