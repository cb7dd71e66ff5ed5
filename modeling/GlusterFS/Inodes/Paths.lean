import GlusterFS.Inodes.Names

/-!
# Paths of inodes

`__inode_path` goes up from an inode, over a dentry of its own choice at every
level, and `inode_from_path` goes down from the root by the names in a path.  Both
are read under the lock of one table, and the references that the second one takes
and gives back are left out.
-/

namespace GlusterFS.Inodes

open Transition Relation

variable {t : InodeTable} {i : InodeId} {dentry : Dentry}

/-- The digits of `uuid_utoa`. -/
def uuidUtoa (gfid : Nat) : List Char :=
  let digits := (List.range 32).map fun place => Nat.digitChar (gfid / 16 ^ (31 - place) % 16)
  [8, 12, 16, 20].reverse.foldl (fun text place => text.insertIdx place '-') digits

/-- `INODE_PATH_FMT` -/
def gfidPath (gfid : Nat) : List Char := "<gfid:".toList ++ uuidUtoa gfid ++ ['>']

/-- `strtok_r` with "/": the token and what is left behind it. -/
def strtok (path : List Char) : Option (List Char × List Char) :=
  match path.dropWhile (· = '/') with
  | [] => none
  | rest => some (rest.takeWhile (· ≠ '/'), (rest.dropWhile (· ≠ '/')).tail)

namespace InodeTable

variable (t : InodeTable)

/-- The second loop of `__inode_path`; `buf` is filled towards its start. -/
def fillPath : Nat → InodeId → List Char → List Char
  | 0, _, buf => buf
  | fuel + 1, i, buf =>
    match t.dentrySearchArbit i with
    | some dentry => fillPath fuel dentry.parent ('/' :: dentry.name.toList ++ buf)
    | none =>
      if (t.inode i).gfid = rootGfid then buf else gfidPath (t.inode i).gfid ++ buf

/-- `__inode_path`.  A turn of the loops adds a character at least, so that they end
within the fuel. -/
def inodePath (i : InodeId) (name : Option String) : Option (List Char) :=
  if (t.inode i).gfid = 0 then none
  else if (t.inode i).gfid = rootGfid ∧ name = none then some ['/']
  else match t.inodePathWalk (pathMax + 2) i 0 with
    | some (some _) =>
      some (t.fillPath (pathMax + 2) i (name.elim [] fun name => '/' :: name.toList))
    | _ => none

/-- The loop of `inode_from_path`. -/
def fromPathLoop : Nat → InodeId → List Char → List Char → Option InodeId
  | 0, _, _, _ => none
  | fuel + 1, parent, component, path =>
    match t.resolve parent (String.ofList component) with
    | none => none
    | some curr =>
      match strtok path with
      | none => some curr
      | some (nextComponent, path) => fromPathLoop fuel curr nextComponent path

/-- `inode_from_path` -/
def inodeFromPath (path : List Char) : Option InodeId :=
  match strtok path with
  | none => some root
  | some (component, rest) => t.fromPathLoop path.length root component rest

end InodeTable

/-! ## The names in a path -/

/-- A name that is one component of a path. -/
def ProperName (name : String) : Prop := name.toList ≠ [] ∧ '/' ∉ name.toList
  deriving Decidable

def joinNames (names : List String) : List Char := names.flatMap fun name => '/' :: name.toList

theorem strtok_joinNames {name : String} (hname : ProperName name) (names : List String) :
    strtok (joinNames (name :: names)) = some (name.toList, (joinNames names).tail) := by
  obtain ⟨hne, hslash⟩ := hname
  have hpos : ∀ c ∈ name.toList, decide (c ≠ '/') = true := fun c hc =>
    decide_eq_true fun h => hslash (h ▸ hc)
  have hrest : (joinNames names).takeWhile (· ≠ '/') = [] ∧
      (joinNames names).dropWhile (· ≠ '/') = joinNames names := by
    cases names <;> simp [joinNames]
  have hdrop : (joinNames (name :: names)).dropWhile (· = '/') =
      name.toList ++ joinNames names := by
    cases hchars : name.toList with
    | nil => exact absurd hchars hne
    | cons c chars =>
      have hc : c ≠ '/' := fun h => hslash (by simp [hchars, h])
      simp [joinNames, hchars, hc]
  cases hchars : name.toList ++ joinNames names with
  | nil => simp [hne] at hchars
  | cons c chars =>
    rw [strtok, hdrop, hchars]
    simp only [← hchars, List.takeWhile_append_of_pos hpos, List.dropWhile_append_of_pos hpos,
      hrest, List.append_nil]

/-- The slash before the next token may be gone already. -/
theorem strtok_tail (names : List String) :
    strtok (joinNames names).tail = strtok (joinNames names) := by
  cases names with
  | nil => rfl
  | cons name names => simp [strtok, joinNames]

theorem fromPathLoop_joinNames {names : List String} (hnames : ∀ name ∈ names, ProperName name)
    {fuel : Nat} (hfuel : names.length < fuel) (parent : InodeId) (name : String) :
    t.fromPathLoop fuel parent name.toList (joinNames names).tail =
      (name :: names).foldlM t.resolve parent := by
  induction fuel generalizing names parent name with
  | zero => omega
  | succ fuel ih =>
    rw [InodeTable.fromPathLoop, String.ofList_toList, List.foldlM_cons, strtok_tail]
    cases t.resolve parent name with
    | none => rfl
    | some curr =>
      cases names with
      | nil => rfl
      | cons next names =>
        rw [List.forall_mem_cons] at hnames
        rw [strtok_joinNames hnames.1]
        exact ih hnames.2 (Nat.lt_of_succ_lt_succ hfuel) curr next

theorem length_le_joinNames (names : List String) : names.length ≤ (joinNames names).length := by
  induction names with
  | nil => rfl
  | cons name names ih =>
    have hcons : joinNames (name :: names) = '/' :: (name.toList ++ joinNames names) := rfl
    rw [hcons, List.length_cons, List.length_cons, List.length_append]
    omega

/-- `inode_from_path` takes the names one after the other. -/
theorem inodeFromPath_joinNames {names : List String} (hnames : ∀ name ∈ names, ProperName name) :
    t.inodeFromPath (joinNames names) = names.foldlM t.resolve root := by
  cases names with
  | nil => rfl
  | cons name names =>
    rw [List.forall_mem_cons] at hnames
    rw [InodeTable.inodeFromPath, strtok_joinNames hnames.1]
    exact fromPathLoop_joinNames hnames.2 (length_le_joinNames (name :: names)) root name

/-! ## The way up -/

theorem resolve_of_mem (hnames : t.UniqueNames) (hdentry : dentry ∈ t.dentries)
    (hhashed : dentry.hashed = true) :
    t.resolve dentry.parent dentry.name = some dentry.inode := by
  have hfound : (t.dentryGrep dentry.parent dentry.name).isSome :=
    List.find?_isSome.mpr ⟨dentry, hdentry, by simp [hhashed]⟩
  obtain ⟨other, hother⟩ := Option.isSome_iff_exists.mp hfound
  have hsame : other = dentry := by
    by_contra hne
    have hnone : ({ t with dentries := t.dentries.erase dentry } : InodeTable).resolve
        dentry.parent dentry.name = none := resolve_erase_self hnames hdentry hhashed rfl
    rw [InodeTable.resolve, Option.map_eq_none_iff, InodeTable.dentryGrep,
      List.find?_eq_none] at hnone
    obtain ⟨hmem, hgrep⟩ := dentryGrep_some hother
    exact hnone other ((List.mem_erase_of_ne hne).mpr hmem) (decide_eq_true hgrep)
  rw [InodeTable.resolve, hother, hsame, Option.map_some]

/-- The dentries that `__dentry_search_arbit` finds, level by level, lead to the root by names
that are components of a path. -/
inductive InodeTable.Rooted (t : InodeTable) : InodeId → Prop
  | root (hsearch : t.dentrySearchArbit root = none) : t.Rooted root
  | under {i : InodeId} {dentry : Dentry} (hsearch : t.dentrySearchArbit i = some dentry)
      (hname : ProperName dentry.name) (hparent : t.Rooted dentry.parent) : t.Rooted i

/-- Where the loops end, they have filled in the names on a way down from the root. -/
theorem fillPath_eq (hnames : t.UniqueNames) (hhashed : ∀ dentry ∈ t.dentries, dentry.hashed = true)
    (hgfid : (t.inode root).gfid = rootGfid) {fuel size : Nat} {found : InodeId × Nat}
    (hwalk : t.inodePathWalk fuel i size = some (some found)) (hi : t.Rooted i)
    (buf : List Char) :
    ∃ names, t.fillPath fuel i buf = joinNames names ++ buf ∧
      names.foldlM t.resolve root = some i ∧ ∀ name ∈ names, ProperName name := by
  induction hi generalizing fuel size buf with
  | root hsearch =>
    cases fuel with
    | zero => cases hwalk
    | succ fuel =>
      rw [InodeTable.fillPath, hsearch]
      exact ⟨[], if_pos hgfid, rfl, by simp⟩
  | @under i dentry hsearch hname hparent ih =>
    cases fuel with
    | zero => cases hwalk
    | succ fuel =>
      obtain ⟨hdentry, rfl⟩ := mem_of_dentrySearchArbit hsearch
      rw [InodeTable.inodePathWalk, hsearch] at hwalk
      rw [InodeTable.fillPath, hsearch]
      dsimp only at hwalk
      split_ifs at hwalk with hlong
      · cases hwalk
      obtain ⟨names, hfill, hdown, hproper⟩ := ih hwalk ('/' :: dentry.name.toList ++ buf)
      refine ⟨names ++ [dentry.name], hfill.trans (by simp [joinNames]), ?_, ?_⟩
      · rw [List.foldlM_append, hdown]
        simpa using resolve_of_mem hnames hdentry (hhashed dentry hdentry)
      · intro name hmem
        rcases List.mem_append.mp hmem with hmem | hmem
        · exact hproper name hmem
        · exact List.mem_singleton.mp hmem ▸ hname

/-- Resolving the path of an inode gives the inode, if the dentries that the path is made
of lead to the root. -/
theorem inode_from_inode_path {lruLimit : Nat} {s : InodeState}
    (hreach : ReachableUnder inodeStep RootInUse (.start lruLimit) s) (hi : s.table.Rooted i)
    {path : List Char} (hpath : s.table.inodePath i none = some path) :
    s.table.inodeFromPath path = some i := by
  have hinv := InodeState.Inv.of_reachable hreach
  rw [InodeTable.inodePath] at hpath
  split_ifs at hpath with hnull hroot
  · cases hpath
    rw [(hinv.gfid i).mp hroot.1]
    rfl
  · cases hwalk : s.table.inodePathWalk (InodeTable.pathMax + 2) i 0 with
    | none => simp [hwalk] at hpath
    | some found =>
      cases found with
      | none => simp [hwalk] at hpath
      | some found =>
        obtain ⟨names, hfill, hdown, hproper⟩ := fillPath_eq (.of_reachable hreach) hinv.hashed
          ((hinv.gfid root).mpr rfl) hwalk hi []
        rw [List.append_nil] at hfill
        simp only [hwalk, Option.elim_none, hfill, Option.some.injEq] at hpath
        rw [← hpath, inodeFromPath_joinNames hproper, hdown]

/-- A file with a name in a directory that is only known by its gfid, and a later one in
the root. -/
def fileLinkedTwice : List InodeLabel :=
  [.find rootGfid, .new, .link 1 none none (some 2), .new,
    .link 2 (some 1) (some "c") (some 3), .link 2 (some root) (some "b") none]

theorem inode_from_inode_path_linked : ∃ s, run inodeStep (.start 0) fileLinkedTwice = some s ∧
      s.table.inodePath 2 none = some ['/', 'b'] ∧
      s.table.inodeFromPath ['/', 'b'] = some 2 := by
  have hrun : (run inodeStep (.start 0) fileLinkedTwice).map (fun s =>
      (s.table.dentrySearchArbit 2, s.table.dentrySearchArbit root, s.table.inodePath 2 none)) =
        some (some ⟨2, root, "b", true⟩, none, some ['/', 'b']) := by
    decide +kernel
  obtain ⟨s, hs, hfields⟩ := Option.map_eq_some_iff.mp hrun
  obtain ⟨hfile, hfields⟩ := Prod.mk.inj hfields
  obtain ⟨hroot, hpath⟩ := Prod.mk.inj hfields
  have hreach : ReachableUnder inodeStep RootInUse (.start 0) s :=
    .of_run fileLinkedTwice .start (by decide +kernel) hs
  have hrooted : s.table.Rooted 2 := .under hfile (by decide +kernel) (.root hroot)
  exact ⟨s, hs, hpath, inode_from_inode_path hreach hrooted hpath⟩

/-- A file with a name in the root, and a later one in a directory that is only
known by its gfid. -/
def fileLinkedUnderGfid : List InodeLabel :=
  [.find rootGfid, .new, .link 1 none none (some 2), .new,
    .link 2 (some root) (some "b") (some 3), .link 2 (some 1) (some "c") none]

/-- The path starts at the gfid of the directory, which is no name in the root. -/
theorem gfid_path_unresolved : ¬∀ (lruLimit : Nat) (s : InodeState) (i : InodeId)
    (path : List Char), ReachableUnder inodeStep RootInUse (.start lruLimit) s →
      ReflTransGen s.table.HashedUnder i root → s.table.UniqueNames →
      s.table.inodePath i none = some path → s.table.inodeFromPath path = some i := by
  intro hclaim
  have hrun : (run inodeStep (.start 0) fileLinkedUnderGfid).map (fun s =>
      (s.table.dentries, s.table.inodePath 2 none,
        (s.table.inodePath 2 none).bind s.table.inodeFromPath)) = some
        ([⟨2, 1, "c", true⟩, ⟨2, root, "b", true⟩],
          some "<gfid:00000000-0000-0000-0000-000000000002>/c".toList, none) := by
    decide +kernel
  obtain ⟨s, hs, hfields⟩ := Option.map_eq_some_iff.mp hrun
  obtain ⟨hdentries, hfields⟩ := Prod.mk.inj hfields
  obtain ⟨hpath, hnone⟩ := Prod.mk.inj hfields
  have hreach : ReachableUnder inodeStep RootInUse (.start 0) s :=
    .of_run fileLinkedUnderGfid .start (by decide +kernel) hs
  have hup : s.table.HashedUnder 2 root :=
    ⟨⟨2, root, "b", true⟩, by simp [hdentries], rfl, rfl, rfl⟩
  have hsome := hclaim 0 s 2 _ hreach (.single hup) (.of_reachable hreach) hpath
  rw [hpath, Option.bind_some, hsome] at hnone
  cases hnone

end GlusterFS.Inodes
