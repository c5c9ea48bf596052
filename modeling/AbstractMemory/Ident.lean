/-! Types, values and nodes are numbered from zero in the order they are made,
so a number is also a position in the table that owns the thing. Throughout,
`t` is the number of a type, `v` that of a value and `n` that of a node. -/

namespace AbstractMemory

def typeText (t : Nat) : String := "%t" ++ toString t

def valueText (v : Nat) : String := "%v" ++ toString v

end AbstractMemory
