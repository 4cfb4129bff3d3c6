import RpmRelease.Proofs.FileSystem.Opening

/-!
# File systems given by a list

A file system can be written down as a list of nodes with their locations, the later ones first.  It
is well-formed when every node has a name and stands in a directory that comes later in the list,
which can be computed, and so can what stands at a location.
-/

set_option autoImplicit false

namespace RpmRelease

/-- Whether a text names an entry can be computed. -/
instance (name : String) : Decidable (Path.IsName name) :=
  decidable_of_iff (name ≠ "" ∧ '/' ∉ name.toList ∧ name ≠ "." ∧ name ≠ "..")
    ⟨fun h => ⟨h.1, h.2.1, h.2.2.1, h.2.2.2⟩,
      fun h => ⟨h.ne_empty, h.no_slash, h.ne_current, h.ne_parent⟩⟩

/-- A superuser at the root, at the beginning of time. -/
def Caller.superuserAtRoot : Caller := ⟨true, [], 0⟩

/-- An ordinary user who starts at the root. -/
def Caller.userAtRoot : Caller := ⟨false, [], 0⟩

namespace FileSystem

/-- The file system with some nodes, the later ones first, and with a directory at the root. -/
def ofNodes : List (Location × Node) → FileSystem
  | [] => empty
  | (l, node) :: nodes => (ofNodes nodes).set l node

/-- What stands at a location in a list of nodes. -/
def nodeAt (l : Location) : List (Location × Node) → Option Node
  | [] => if [] = l then some (.directory Mode.directory 0) else none
  | (k, node) :: nodes => if k = l then some node else nodeAt l nodes

/-- At each location stands what the list of nodes has there. -/
theorem get?_ofNodes (nodes : List (Location × Node)) (l : Location) :
    (ofNodes nodes).get? l = nodeAt l nodes := by
  induction nodes with
  | nil => simp [ofNodes, nodeAt, empty, get?, Std.ExtTreeMap.getElem?_insert]
  | cons entry nodes ih =>
      obtain ⟨k, node⟩ := entry
      rw [ofNodes, get?_set, ih, nodeAt]

/-- What holds of the root and of every node of a list holds of every node of the file system. -/
theorem forall_ofNodes {nodes : List (Location × Node)} {P : Location → Node → Prop}
    (hroot : P [] (.directory Mode.directory 0)) (h : ∀ entry ∈ nodes, P entry.1 entry.2) :
    ∀ l node, (ofNodes nodes).get? l = some node → P l node := by
  intro l node hnode
  rw [get?_ofNodes] at hnode
  induction nodes with
  | nil =>
      rw [nodeAt] at hnode
      split at hnode
      · next hl => exact hl ▸ Option.some.inj hnode ▸ hroot
      · simp at hnode
  | cons entry nodes ih =>
      rw [nodeAt] at hnode
      split at hnode
      · next hl => exact hl ▸ Option.some.inj hnode ▸ h entry List.mem_cons_self
      · exact ih (fun other hother => h other (List.mem_cons_of_mem entry hother)) hnode

/-- Whether every node has a name that is new in a directory that comes later in the list. -/
def sound : List (Location × Node) → Bool
  | [] => true
  | (l, _) :: nodes =>
    sound nodes && l != [] && l.all (fun name => decide (Path.IsName name)) &&
      (nodeAt l nodes).isNone && ((nodeAt l.dropLast nodes).map Node.kind == some .directory)

/-- File systems given by sound lists are well-formed. -/
theorem wellFormed_ofNodes {nodes : List (Location × Node)} (h : sound nodes = true) :
    (ofNodes nodes).WellFormed := by
  induction nodes with
  | nil =>
      have hroot {l : Location} {node : Node} (hnode : (ofNodes []).get? l = some node) : l = [] := by
        rw [get?_ofNodes, nodeAt] at hnode
        split at hnode
        · next hl => exact hl.symm
        · simp at hnode
      refine ⟨fun l node hnode name hname => ?_, fun l name node hnode => ?_⟩
      · rw [hroot hnode] at hname
        simp at hname
      · exact absurd (hroot hnode) (by simp)
  | cons entry nodes ih =>
      obtain ⟨l, node⟩ := entry
      simp only [sound, Bool.and_eq_true, bne_iff_ne, List.all_eq_true, decide_eq_true_eq,
        Option.isNone_iff_eq_none, beq_iff_eq, Option.map_eq_some_iff] at h
      obtain ⟨⟨⟨⟨hsound, hne⟩, hnames⟩, hvacant⟩, directory, hdirectory, hkind⟩ := h
      refine (ih hsound).set hnames ?_ ?_
      · rintro k name rfl
        rw [List.dropLast_concat] at hdirectory
        exact ⟨directory, by rw [get?_ofNodes, hdirectory], hkind⟩
      · intro other hother
        simp [get?_ofNodes, hvacant] at hother

end FileSystem

end RpmRelease
