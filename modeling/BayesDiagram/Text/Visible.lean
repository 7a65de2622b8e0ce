import BayesDiagram.Text.Extending
import BayesDiagram.Text.Unassigned

/-! Which characters a quoted text shows as themselves: those that leave a mark of their own, and
the space. The classes are those of Unicode 17.0: control characters (Cc), separators other than the
space (Zs, Zl, Zp), format characters (Cf), code points for private use (Co), and the ones that are
extending or unassigned. -/
namespace BayesDiagram.CharClass

def controls : CharClass :=
  [(0x0000, 0x001f), (0x007f, 0x009f)]

def blanks : CharClass :=
  [(0x00a0, 0x00a0), (0x1680, 0x1680), (0x2000, 0x200a), (0x2028, 0x2029), (0x202f, 0x202f),
   (0x205f, 0x205f), (0x3000, 0x3000)]

def formats : CharClass :=
  [(0x00ad, 0x00ad), (0x0600, 0x0605), (0x061c, 0x061c), (0x06dd, 0x06dd), (0x070f, 0x070f),
   (0x0890, 0x0891), (0x08e2, 0x08e2), (0x180e, 0x180e), (0x200b, 0x200f), (0x202a, 0x202e),
   (0x2060, 0x2064), (0x2066, 0x206f), (0xfeff, 0xfeff), (0xfff9, 0xfffb), (0x110bd, 0x110bd),
   (0x110cd, 0x110cd), (0x13430, 0x1343f), (0x1bca0, 0x1bca3), (0x1d173, 0x1d17a),
   (0xe0001, 0xe0001), (0xe0020, 0xe007f)]

def privateUse : CharClass :=
  [(0xe000, 0xf8ff), (0xf0000, 0xffffd), (0x100000, 0x10fffd)]

/-- Hangul letters that hold the place of an absent one: the only letters that Unicode calls
ignorable by default (Default_Ignorable_Code_Point). -/
def fillers : CharClass :=
  [(0x115f, 0x1160), (0x3164, 0x3164), (0xffa0, 0xffa0)]

def hidden : List CharClass :=
  [controls, blanks, formats, privateUse, fillers, extending, unassigned]

def ascii : CharClass :=
  [(0x0020, 0x007e)]

/-- The halfwidth voiced and semi-voiced sound marks. They extend the character before them, yet
fill a cell of their own. -/
def soundMarks : CharClass :=
  [(0xff9e, 0xff9f)]

/-- The classes that a quoted text shows even where a hidden class has their characters too. ASCII
stands first, as most names hold nothing else. -/
def shown : List CharClass :=
  [ascii, soundMarks]

end BayesDiagram.CharClass

namespace BayesDiagram

def visible (c : Char) : Bool :=
  (CharClass.shown.any fun ranges => ranges.has c) ||
    !CharClass.hidden.any fun ranges => ranges.has c

end BayesDiagram
