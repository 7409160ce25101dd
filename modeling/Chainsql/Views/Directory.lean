import Chainsql.Lib.Effects
import Chainsql.Views.StateTable
import Mathlib.Data.List.Chain
import Mathlib.Data.List.Sort

/-!
# Directories

A directory is a ring of pages of keys. The root is page zero, and holds the number of the last page as its
previous one. Pages are added at the end, and removed wherever they get empty.
-/

namespace Chainsql.Views

def dirNodeMaxEntries : ℕ := 32

def dirNodeMaxPages : ℕ := 26214400

structure Page (κ : Type) where
  indexes : List κ
  indexNext : ℕ
  indexPrevious : ℕ
deriving DecidableEq

abbrev Dir (κ : Type) := SortedMap ℕ (Page κ)

variable {κ : Type}

/-! ## The view -/

def peekPage (d : Dir κ) (n : ℕ) (text : String) : Except LogicError (Page κ) :=
  match d.find n with
  | some page => .ok page
  | none => .error ⟨text⟩

def insertPage (d : Dir κ) (n : ℕ) (page : Page κ) : Except LogicError (Dir κ) :=
  if (d.find n).isSome then .error ⟨"ApplyStateTable::insert: already inserted"⟩ else .ok (d.set n page)

def updatePage (d : Dir κ) (n : ℕ) (page : Page κ) : Except LogicError (Dir κ) :=
  if (d.find n).isSome then .ok (d.set n page) else .error ⟨"ApplyStateTable::update: missing key"⟩

def erasePage (d : Dir κ) (n : ℕ) : Except LogicError (Dir κ) :=
  if (d.find n).isSome then .ok (d.erase n) else .error ⟨"ApplyStateTable::erase: missing key"⟩

/-! ## `dirAdd` -/

def addKey [LinearOrder κ] (preserveOrder : Bool) (key : κ) (indexes : List κ) : Except LogicError (List κ) :=
  if preserveOrder then
    if key ∈ indexes then .error ⟨"dirInsert: double insertion"⟩ else .ok (indexes ++ [key])
  else
    let sorted := indexes.insertionSort (· ≤ ·)
    let pos := sorted.dropWhile (· < key)
    if pos.head? = some key then .error ⟨"dirInsert: double insertion"⟩
    else .ok (sorted.takeWhile (· < key) ++ key :: pos)

/-- The page that the next key goes to, unless it is full. -/
def lastPage (d : Dir κ) (root : Page κ) : Except LogicError (Page κ) :=
  if root.indexPrevious ≠ 0 then peekPage d root.indexPrevious "Directory chain: root back-pointer broken."
  else .ok root

/-- A new page, after the last one. -/
def addPage (d : Dir κ) (page : ℕ) (node : Page κ) (key : κ) : Except LogicError (Option ℕ × Dir κ) := do
  let d ← updatePage d page { node with indexNext := page + 1 }
  -- the root may be the page that has just been changed
  let root ← peekPage d 0 ""
  let d ← updatePage d 0 { root with indexPrevious := page + 1 }
  let d ← insertPage d (page + 1) ⟨[key], 0, if page + 1 ≠ 1 then page + 1 - 1 else 0⟩
  return (some (page + 1), d)

def dirAdd [LinearOrder κ] (d : Dir κ) (preserveOrder : Bool) (key : κ) : Except LogicError (Option ℕ × Dir κ) :=
  match d.find 0 with
  | none => do
    let d ← insertPage d 0 ⟨[key], 0, 0⟩
    return (some 0, d)
  | some root => do
    let page := root.indexPrevious
    let node ← lastPage d root
    if node.indexes.length < dirNodeMaxEntries then
      let indexes ← addKey preserveOrder key node.indexes
      let d ← updatePage d page { node with indexes }
      return (some page, d)
    else if dirNodeMaxPages ≤ page + 1 then return (none, d)
    else addPage d page node key

/-! ## `emptyDirDelete` and `dirRemove` -/

/-- Older versions of the code would allow the last page to be empty. The links of the root without it. -/
def dropLastPage (d : Dir κ) (node : Page κ) : Except LogicError (Dir κ) := do
  let d ← updatePage d 0 { node with indexNext := 0, indexPrevious := 0 }
  erasePage d node.indexNext

def emptyDirDelete (d : Dir κ) : Except LogicError (Bool × Dir κ) :=
  match d.find 0 with
  | none => .ok (false, d)
  | some node =>
    if node.indexes ≠ [] then .ok (false, d)
    else if node.indexNext = 0 ∧ node.indexPrevious ≠ 0 then .error ⟨"Directory chain: fwd link broken"⟩
    else if node.indexPrevious = 0 ∧ node.indexNext ≠ 0 then .error ⟨"Directory chain: rev link broken"⟩
    else if node.indexNext = node.indexPrevious ∧ node.indexNext ≠ 0 then do
      let last ← peekPage d node.indexNext "Directory chain: fwd link broken."
      if last.indexes ≠ [] then return (false, d)
      else
        let d ← dropLastPage d node
        let d ← erasePage d 0
        return (true, d)
    else if node.indexNext = 0 ∧ node.indexPrevious = 0 then do
      let d ← erasePage d 0
      return (true, d)
    else .ok (true, d)

/-- The root has become empty. -/
def removeRoot (d : Dir κ) (node : Page κ) (keepRoot : Bool) : Except LogicError (Bool × Dir κ) :=
  if node.indexNext = 0 ∧ node.indexPrevious ≠ 0 then .error ⟨"Directory chain: fwd link broken"⟩
  else if node.indexPrevious = 0 ∧ node.indexNext ≠ 0 then .error ⟨"Directory chain: rev link broken"⟩
  else if node.indexNext = node.indexPrevious ∧ node.indexNext ≠ 0 then do
    let last ← peekPage d node.indexNext "Directory chain: fwd link broken."
    if last.indexes ≠ [] then return (true, d)
    else
      let d ← dropLastPage d node
      if keepRoot then return (true, d)
      else
        let d ← erasePage d 0
        return (true, d)
  else if keepRoot then .ok (true, d)
  else if node.indexNext = 0 ∧ node.indexPrevious = 0 then do
    let d ← erasePage d 0
    return (true, d)
  else .ok (true, d)

/-- A page is taken out of the chain. Its neighbours are the same page if only the root is left. -/
def unlinkPage (d : Dir κ) (page prevPage nextPage : ℕ) : Except LogicError (Page κ × Page κ × Dir κ) := do
  let prev ← peekPage d prevPage "Directory chain: fwd link broken."
  let d ← updatePage d prevPage { prev with indexNext := nextPage }
  let next ← peekPage d nextPage "Directory chain: rev link broken."
  let d ← updatePage d nextPage { next with indexPrevious := prevPage }
  let d ← erasePage d page
  return (prev, next, d)

/-- The page after the removed one was the last one, and empty. -/
def dropNextPage (d : Dir κ) (prevPage nextPage : ℕ) : Except LogicError (Dir κ) := do
  let d ← erasePage d nextPage
  let prev ← peekPage d prevPage ""
  let d ← updatePage d prevPage { prev with indexNext := 0 }
  let root ← peekPage d 0 "Directory chain: root link broken."
  updatePage d 0 { root with indexPrevious := prevPage }

/-- Another page has become empty. -/
def removePage (d : Dir κ) (page : ℕ) (node : Page κ) (keepRoot : Bool) : Except LogicError (Bool × Dir κ) :=
  if node.indexNext = page then .error ⟨"Directory chain: fwd link broken"⟩
  else if node.indexPrevious = page then .error ⟨"Directory chain: rev link broken"⟩
  else do
    let (prev, next, d) ← unlinkPage d page node.indexPrevious node.indexNext
    if node.indexNext ≠ 0 ∧ next.indexNext = 0 ∧ next.indexes = [] then
      let d ← dropNextPage d node.indexPrevious node.indexNext
      if keepRoot = false ∧ node.indexPrevious = 0 ∧ prev.indexes = [] then
        let d ← erasePage d node.indexPrevious
        return (true, d)
      else return (true, d)
    else if keepRoot = false ∧ node.indexNext = 0 ∧ node.indexPrevious = 0 ∧ prev.indexes = [] then
      let d ← erasePage d node.indexPrevious
      return (true, d)
    else return (true, d)

def dirRemove [LinearOrder κ] (d : Dir κ) (page : ℕ) (key : κ) (keepRoot : Bool) : Except LogicError (Bool × Dir κ) :=
  match d.find page with
  | none => .ok (false, d)
  | some node =>
    if key ∉ node.indexes then .ok (false, d)
    else do
      let node := { node with indexes := node.indexes.erase key }
      let d ← updatePage d page node
      if node.indexes ≠ [] then return (true, d)
      else if page = 0 then removeRoot d node keepRoot
      else removePage d page node keepRoot

/-! ## The walk -/

/-- The entry of a page and the position after it, or that of a later page. -/
def cdirNext (d : Dir κ) : ℕ → Page κ → ℕ → Option (Option (κ × Page κ × ℕ))
  | 0, _, _ => none
  | fuel + 1, node, entry =>
    match node.indexes[entry]? with
    | some key => some (some (key, node, entry + 1))
    | none =>
      if node.indexNext = 0 then some none
      else
        match d.find node.indexNext with
        | none => some none
        | some next => cdirNext d fuel next 0

/-- The entries that `cdirNext` returns one after the other. -/
def walkFrom (d : Dir κ) : ℕ → Page κ → ℕ → Option (List κ)
  | 0, _, _ => none
  | fuel + 1, node, entry =>
    match cdirNext d (fuel + 1) node entry with
    | none => none
    | some none => some []
    | some (some (key, node, entry)) => (walkFrom d fuel node entry).map (key :: ·)

/-- The entries from `cdirFirst` on. There is no walk through a directory that does not exist. -/
def walk (d : Dir κ) (fuel : ℕ) : Option (List κ) :=
  match d.find 0 with
  | none => none
  | some root => walkFrom d fuel root 0

/-- The entries that `forEachItem` visits from a page on. -/
def forEachItem (d : Dir κ) : ℕ → ℕ → Option (List κ)
  | 0, _ => none
  | fuel + 1, n =>
    match d.find n with
    | none => some []
    | some node =>
      if node.indexNext = 0 then some node.indexes
      else (forEachItem d fuel node.indexNext).map (node.indexes ++ ·)

/-! ## Runs -/

/-- A directory with the page that `dirAdd` has returned for each key that is present. -/
structure DirState (κ : Type) where
  dir : Dir κ
  given : κ → Option ℕ

inductive DirOp (κ : Type) where
  | dirAdd (preserveOrder : Bool) (key : κ)
  | dirRemove (page : ℕ) (key : κ) (keepRoot : Bool)
  | emptyDirDelete

namespace DirState

def init : DirState κ := ⟨.empty, fun _ => none⟩

def step [LinearOrder κ] (s : DirState κ) : DirOp κ → Except LogicError (DirState κ)
  | .dirAdd preserveOrder key => do
    let (page, dir) ← Views.dirAdd s.dir preserveOrder key
    return ⟨dir, if page.isSome then Function.update s.given key page else s.given⟩
  | .dirRemove page key keepRoot => do
    let (removed, dir) ← Views.dirRemove s.dir page key keepRoot
    return ⟨dir, if removed then Function.update s.given key none else s.given⟩
  | .emptyDirDelete => do
    let (_, dir) ← Views.emptyDirDelete s.dir
    return ⟨dir, s.given⟩

/-- Keys are distinct while they are present, and removed from the page that has been returned for them. -/
def Legal (s : DirState κ) : DirOp κ → Prop
  | .dirAdd _ key => s.given key = none
  | .dirRemove page key _ => s.given key = some page
  | .emptyDirDelete => True

instance (s : DirState κ) : (op : DirOp κ) → Decidable (s.Legal op)
  | .dirAdd _ key => inferInstanceAs (Decidable (s.given key = none))
  | .dirRemove page key _ => inferInstanceAs (Decidable (s.given key = some page))
  | .emptyDirDelete => inferInstanceAs (Decidable True)

end DirState

/-! ## The shape of a directory -/

def nextAt (d : Dir κ) (n : ℕ) : Option ℕ := (d.find n).map Page.indexNext

def prevAt (d : Dir κ) (n : ℕ) : Option ℕ := (d.find n).map Page.indexPrevious

def indexesAt (d : Dir κ) (n : ℕ) : Option (List κ) := (d.find n).map Page.indexes

/-- Two pages that are linked in both directions. -/
def Link (d : Dir κ) (a b : ℕ) : Prop := nextAt d a = some b ∧ prevAt d b = some a

/-- The last page, which is full, has the greatest number. -/
def Exhausted (d : Dir κ) : Prop := ∃ last, d.find (dirNodeMaxPages - 1) = some last ∧ last.indexNext = 0 ∧
  last.indexes.length = dirNodeMaxEntries

structure DirState.Sound (s : DirState κ) : Prop where
  ring : (∀ n, s.dir.find n = none) ∨
    ∃ ps, (0 :: ps).Nodup ∧ List.IsChain (Link s.dir) (0 :: (ps ++ [0])) ∧ ∀ n, s.dir.find n ≠ none ↔ n ∈ 0 :: ps
  nonempty : ∀ n page, s.dir.find n = some page → n ≠ 0 → page.indexes ≠ []
  bounded : ∀ n page, s.dir.find n = some page → page.indexes.length ≤ dirNodeMaxEntries
  keys : ∀ key n, s.given key = some n ↔ ∃ page, s.dir.find n = some page ∧ key ∈ page.indexes
  walk : s.dir.find 0 ≠ none → ∃ keys enough, (∀ fuel, enough ≤ fuel → Views.walk s.dir fuel = some keys) ∧
    keys.Nodup ∧ ∀ key, key ∈ keys ↔ (s.given key).isSome = true

end Chainsql.Views
