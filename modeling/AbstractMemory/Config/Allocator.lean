import Std.Data.TreeMap

/-! Functions that allocate memory on the heap. -/

namespace AbstractMemory

/-- An allocator, with the positions of the arguments for size and flags. -/
structure Allocator where
  name : String
  sizeArg : Option Nat := none
  flagsArg : Option Nat := none
deriving DecidableEq, Repr, Inhabited

/-- Allocators by name. -/
structure AllocatorTable where
  entries : Std.TreeMap String Allocator := {}
deriving Inhabited

namespace AllocatorTable

/-- Adds an allocator, which replaces one of the same name. -/
def insert (t : AllocatorTable) (a : Allocator) : AllocatorTable :=
  { entries := t.entries.insert a.name a }

def ofList (as : List Allocator) : AllocatorTable :=
  as.foldl insert {}

def lookup (t : AllocatorTable) (name : String) : Option Allocator :=
  t.entries[name]?

def contains (t : AllocatorTable) (name : String) : Bool :=
  (t.lookup name).isSome

def size (t : AllocatorTable) : Nat :=
  t.entries.size

end AllocatorTable

/-- The allocators of the Linux kernel and of the C library. -/
def defaultAllocators : List Allocator :=
  ["kmalloc", "kzalloc", "__kmalloc", "kmalloc_node", "kzalloc_node", "__kmalloc_node",
    "kmalloc_large", "__kmalloc_track_caller", "kvmalloc_node"].map (⟨·, some 0, some 1⟩) ++
  ["malloc", "vmalloc", "vzalloc", "__vmalloc", "vmalloc_user", "kvmalloc"].map
    (⟨·, some 0, none⟩) ++
  ["kmem_cache_alloc", "kmem_cache_zalloc", "kmem_cache_alloc_node"].map (⟨·, none, some 1⟩) ++
  [⟨"kcalloc", some 1, some 2⟩, ⟨"kmemdup", some 1, some 2⟩, ⟨"calloc", some 1, none⟩]

end AbstractMemory
