import AudioProject.Store.Events

/-
  The hierarchy of a kind as indented lines. The program goes down to the children of every place
  that it comes to and remembers nothing of where it has been, so below a place that stands above
  itself it goes on for ever. A definition has to end: `branchLines` remembers the places above and
  prints nothing below itself, so where the walk comes to such a place it is not what the program
  does. The program's own walk is the relation `Walks`, and if that ends, its rows are the lines
  here.
-/

namespace AudioProject.Command

def indent (depth : Nat) : String := String.ofList (List.replicate (2 * depth) ' ')

/-- By name, and by id where names are equal. -/
def entryOrder (a b : IndexEntry) : Bool := Store.nameOrder (a.name, a.id) (b.name, b.id)

/-- The children of an id, by name. -/
def sortedChildren (x : KindIndex) (id : ObjectId) : List ObjectId :=
  (((x.tree.children id).filterMap x.get?).mergeSort entryOrder).map IndexEntry.id

def entryLine (depth : Nat) (e : IndexEntry) : String :=
  indent depth ++ (if e.name = "" then e.objectClass.name else e.name) ++ " " ++ e.id.text

/-- The lines of an entry and of all below it. The program does not ask whether the entry is among
`above`: there its walk does not end (`Walks`). -/
def branchLines (x : KindIndex) (above : List ObjectId) (top : ObjectId) : List String :=
  match _he : x.entries.get? top with
  | none => []
  | some e =>
    if _hs : top ∈ above then []
    else
      entryLine above.length e ::
        (sortedChildren x top).flatMap fun child => branchLines x (top :: above) child
termination_by unseen x.entries.keys above
decreasing_by
  exact unseen_cons_lt
    (List.mem_map.2 ⟨(top, e), (x.entries.get?_eq_some_iff top e).1 _he, rfl⟩) _hs

def treeLines (x : KindIndex) : List String :=
  ((x.roots.mergeSort entryOrder).map IndexEntry.id).flatMap (branchLines x [])

/-- The line of an asset folder, which its path places. -/
def folderLine (e : IndexEntry) : String :=
  let path := e.assetPath?.getD .root
  let label := if path.isRoot then "<root> " ++ e.objectClass.name else path.text
  indent path.depth ++ label ++ " " ++ e.id.text

def folderLines (x : KindIndex) : List String :=
  (x.list.mergeSort fun a b => Store.pathText a ≤ Store.pathText b).map folderLine

/-- The hierarchy of a kind. -/
def outline (s : Store) (k : Kind) : List String :=
  if k = .assetFolder then folderLines (s.index k) else treeLines (s.index k)

end AudioProject.Command
