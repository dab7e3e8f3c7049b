import BlockLang.Word

/-!
# Frames

The frame of a procedure starts with a header of seven words, which the caller fills.
Parameters and then local variables follow it, and behind them stands the display: the
frame bases of the enclosing levels, outermost first, and of the procedure itself. The
frame of the main program has no header.

The offsets here are the ones that calls and returns use; where the variables stand is
kept with their symbols.
-/

namespace BlockLang.Frame

/-- Words before the first parameter. -/
def headerSize : Int := 7

/-! Header slots that keep registers of the caller. -/

def savedSp : Word := 0

def savedAc : Word := 1

def savedAc1 : Word := 2

def savedAc2 : Word := 3

def savedDisplay : Word := 4

/-- The header slot of the level of the called procedure. -/
def levelSlot : Word := 5

/-- The header slot of the address where the caller goes on. -/
def returnAddress : Word := 6

end BlockLang.Frame
