import Mathlib.Logic.Function.Basic

namespace TgeCore.Library

structure Inode (β μ : Type*) where
  content : List β
  mode : μ

/-- Files under names, with what a loss of power can do: it tears the inodes that were written
and not synced since, and may undo the latest changes of the names. -/
structure Disk (π β μ : Type*) where
  entries : π → Option Nat
  inodes : List (Inode β μ)
  unsynced : List Nat := []
  past : List (π → Option Nat) := []

namespace Disk
variable {π β μ : Type*}

/-- What an inode holds. -/
def content (d : Disk π β μ) (id : Nat) : Option (List β) := (d.inodes[id]?).map Inode.content

/-- What a reader of a name gets. -/
def read (d : Disk π β μ) (name : π) : Option (List β) := (d.entries name).bind d.content

def setEntries (d : Disk π β μ) (entries : π → Option Nat) : Disk π β μ :=
  { d with entries, past := d.entries :: d.past }

def create [DecidableEq π] (d : Disk π β μ) (name : π) (mode : μ) : Disk π β μ :=
  { d.setEntries (Function.update d.entries name (some d.inodes.length)) with
    inodes := d.inodes ++ [⟨[], mode⟩]
    unsynced := d.inodes.length :: d.unsynced }

def append (d : Disk π β μ) (id : Nat) (bytes : List β) : Disk π β μ :=
  { d with
    inodes := d.inodes.modify id fun inode => { inode with content := inode.content ++ bytes }
    unsynced := id :: d.unsynced }

def chmod (d : Disk π β μ) (id : Nat) (mode : μ) : Disk π β μ :=
  { d with inodes := d.inodes.modify id fun inode => { inode with mode } }

def sync (d : Disk π β μ) (id : Nat) : Disk π β μ := { d with unsynced := d.unsynced.filter (· ≠ id) }

/-- The new name is replaced in one step. -/
def rename [DecidableEq π] (d : Disk π β μ) (old new : π) : Disk π β μ :=
  d.setEntries (Function.update (Function.update d.entries new (d.entries old)) old none)

def unlink [DecidableEq π] (d : Disk π β μ) (name : π) : Disk π β μ := d.setEntries (Function.update d.entries name none)

/-- The names are those of some moment, and what was not synced is whatever was on its blocks. -/
def powerLoss (d : Disk π β μ) (torn : Nat → List β) (back : Nat) : Option (Disk π β μ) :=
  ((d.entries :: d.past)[back]?).map fun entries =>
    { entries
      inodes := d.inodes.mapIdx fun id inode => if id ∈ d.unsynced then { inode with content := torn id } else inode }

/-- Every name, now and in the past, is of an inode. -/
def Linked (d : Disk π β μ) : Prop :=
  ∀ dir ∈ d.entries :: d.past, ∀ name id, dir name = some id → id < d.inodes.length

section Content
variable (d : Disk π β μ) (name new : π) (id : Nat) (mode : μ) (bytes : List β)

theorem content_create_new [DecidableEq π] : (d.create name mode).content d.inodes.length = some [] := by
  unfold content create
  rw [List.getElem?_concat_length]
  rfl

theorem content_create [DecidableEq π] {id : Nat} (hid : id < d.inodes.length) :
    (d.create name mode).content id = d.content id := by
  unfold content create
  rw [List.getElem?_append_left hid]

theorem content_append_self : (d.append id bytes).content id = (d.content id).map (· ++ bytes) := by
  unfold content append
  rw [List.getElem?_modify_eq, Option.map_eq_map, Option.map_map, Option.map_map]
  rfl

theorem content_append {other : Nat} (hother : id ≠ other) : (d.append id bytes).content other = d.content other := by
  unfold content append
  simp only [List.getElem?_modify, if_neg hother, id_map']

theorem content_chmod (other : Nat) : (d.chmod id mode).content other = d.content other := by
  unfold content chmod
  rw [List.getElem?_modify]
  cases d.inodes[other]? with
  | none => rfl
  | some inode =>
    simp only [Option.map_eq_map, Option.map_some]
    split
    · rfl
    · rfl

theorem content_powerLoss {d d' : Disk π β μ} {torn : Nat → List β} {back : Nat} (h : d.powerLoss torn back = some d')
    (hid : id ∉ d.unsynced) : d'.content id = d.content id := by
  obtain ⟨entries, -, rfl⟩ := Option.map_eq_some_iff.mp h
  unfold content
  rw [List.getElem?_mapIdx, Option.map_map]
  refine congrFun (congrArg Option.map (funext fun inode => ?_)) _
  simp only [Function.comp_apply, if_neg hid]

end Content

end Disk

end TgeCore.Library
