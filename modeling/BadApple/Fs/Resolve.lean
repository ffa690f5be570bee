/-
  What `Ext2::find` and `read_all` give of a volume (kernel/ext2.cc).

  1. **Names** — `findOne_child`: in a stored directory, `find_one` finds what the volume has under a name.
  2. **The walk** — `walk_walked`: up to the next link, by induction on the names, the walk of `find` goes down
     the directories of the volume.
  3. **The crux** — `resolveNames_leads`: from link to link, by induction on the links that may still be met;
     it ends in an i-number exactly if the names lead there, and no assertion fails.
  4. **The result** — `mounted_volume`: a device that holds a volume is mounted, and from then on, as long as
     the buffer cache answers, `find` finds the node of every path of the volume and no other, and what is
     read of a file are its bytes.
-/
import BadApple.Cache.Answers
import BadApple.Fs.Volume

namespace BadApple

open Ext2

variable {disk : BlockIo} {v : Volume} {F : FileSystem} {dir i next : Nat} {name target : List UInt8}
variable {rest names : List (List UInt8)}

/-! ## Names -/

/-- What the entries of a directory have under a name is the number of the first record in use. -/
theorem lookup_used (name : List UInt8) : ∀ (rs : List DirRecord),
    ((rs.filter fun r => r.inode ≠ 0).map fun r => (r.name, r.inode)).lookup name =
      if usedInode rs name = 0 then none else some (usedInode rs name) := by
  intro rs
  induction rs with
  | nil => rfl
  | cons r rs ih =>
    by_cases hused : r.inode = 0
    · have hskip : usedInode (r :: rs) name = usedInode rs name := by
        rw [usedInode, usedInode, List.find?_cons_of_neg (by simp [hused])]
      rw [List.filter_cons_of_neg (by simp [hused]), ih, hskip]
    · rw [List.filter_cons_of_pos (by simpa using hused), List.map_cons, List.lookup_cons]
      by_cases hname : name = r.name
      · have hfirst : usedInode (r :: rs) name = r.inode := by
          rw [usedInode, List.find?_cons_of_pos (by simpa using ⟨hused, hname.symm⟩)]
          rfl
        rw [hfirst, if_neg hused, beq_iff_eq.2 hname]
      · have hskip : usedInode (r :: rs) name = usedInode rs name := by
          rw [usedInode, usedInode, List.find?_cons_of_neg (by simpa using fun _ h => hname h.symm)]
        rw [hskip, beq_eq_false_iff_ne.2 hname]
        exact ih

namespace Volume

/-- What a directory names is there. -/
theorem child_isSome (h : v.child dir name = some i) : (v.content i).isSome := by
  rw [child] at h
  cases hdir : v.content dir with
  | none =>
    rw [hdir] at h
    cases h
  | some c =>
    rw [hdir] at h
    cases c with
    | file bytes => cases h
    | link target => cases h
    | directory entries =>
      obtain ⟨before, after, hmem, _⟩ := List.lookup_eq_some_iff.1 h
      exact v.closed dir entries hdir name i (by rw [hmem]; simp)

/-- Only directories name something. -/
theorem child_eq_none (h : ∀ entries, v.content dir ≠ some (.directory entries)) : v.child dir name = none := by
  rw [child]
  cases hdir : v.content dir with
  | none => rfl
  | some c =>
    cases c with
    | file bytes => rfl
    | link target => rfl
    | directory entries => exact absurd hdir (h entries)

theorem start_isSome (h : (v.content dir).isSome) (path : List UInt8) :
    (v.content (start dir path)).isSome := by
  rw [start]
  by_cases habs : isAbsolute path = true
  · obtain ⟨entries, hroot⟩ := v.root
    rw [if_pos habs, hroot]
    rfl
  · rw [if_neg habs]
    exact h

/-! ## Where names lead -/

theorem leads_nil {links : Nat} : v.Leads links dir [] i ↔ links = 0 ∧ i = dir := by
  constructor
  · rintro ⟨⟩
    exact ⟨rfl, rfl⟩
  · rintro ⟨rfl, rfl⟩
    exact .here i

theorem leads_none {links : Nat} (hchild : v.child dir name = none) :
    ¬ v.Leads links dir (name :: rest) i := by
  intro h
  cases h with
  | down h _ _ =>
    rw [hchild] at h
    cases h
  | through h _ _ _ =>
    rw [hchild] at h
    cases h

/-- Down to what is not a link, or is the last. -/
theorem leads_down {links : Nat} (hchild : v.child dir name = some next)
    (hkind : ¬ (v.IsLink next ∧ rest ≠ [])) :
    v.Leads links dir (name :: rest) i ↔ v.Leads links next rest i := by
  constructor
  · intro h
    cases h with
    | down h _ hrest =>
      rw [hchild] at h
      obtain rfl := Option.some.inj h
      exact hrest
    | through h hlink hmore _ =>
      rw [hchild] at h
      obtain rfl := Option.some.inj h
      exact absurd ⟨⟨_, hlink⟩, hmore⟩ hkind
  · intro h
    refine .down hchild ?_ h
    by_cases hrest : rest = []
    · exact Or.inl hrest
    · exact Or.inr fun hlink => hkind ⟨hlink, hrest⟩

/-- Through a link with names after it. -/
theorem leads_through {links : Nat} (hchild : v.child dir name = some next)
    (hlink : v.content next = some (.link target)) (hmore : rest ≠ []) :
    v.Leads links dir (name :: rest) i ↔
      ∃ k, links = k + 1 ∧ v.Leads k (start dir target) (namesOf target ++ rest) i := by
  constructor
  · intro h
    cases h with
    | down h hkind _ =>
      rw [hchild] at h
      obtain rfl := Option.some.inj h
      exact absurd ⟨target, hlink⟩ (hkind.resolve_left hmore)
    | through h hlink' _ hrest =>
      rw [hchild] at h
      obtain rfl := Option.some.inj h
      rw [hlink] at hlink'
      obtain rfl := Content.link.inj (Option.some.inj hlink')
      exact ⟨_, rfl, hrest⟩
  · rintro ⟨k, rfl, hrest⟩
    exact .through hchild hlink hmore hrest

end Volume

/-! ## Names as C strings -/

/-- Names without a NUL. -/
def NoNul (names : List (List UInt8)) : Prop := ∀ n ∈ names, 0 ∉ n

theorem NoNul.tail (h : NoNul (name :: rest)) : NoNul rest := fun n hn => h n (List.mem_cons_of_mem name hn)

theorem NoNul.append (h : NoNul names) (hrest : NoNul rest) : NoNul (names ++ rest) := by
  intro n hn
  rcases List.mem_append.1 hn with hn | hn
  · exact h n hn
  · exact hrest n hn

/-- The names of a path have only its characters. -/
theorem namesOf_noNul (h : 0 ∉ target) : NoNul (namesOf target) := by
  intro n hn hzero
  rw [namesOf, List.mem_filter] at hn
  have hsub : ∀ (p : List UInt8), ∀ m ∈ p.splitOn slash, ∀ c ∈ m, c ∈ p := by
    intro p
    induction p with
    | nil => simp
    | cons c p ih =>
      rw [List.splitOn_cons_eq_if_modifyHead]
      by_cases hc : c = slash
      · rw [if_pos (by simp [hc])]
        intro m hm b hb
        rcases List.mem_cons.1 hm with rfl | hm
        · cases hb
        · exact List.mem_cons_of_mem c (ih m hm b hb)
      · rw [if_neg (by simpa using hc)]
        cases hsplit : p.splitOn slash with
        | nil => exact absurd hsplit (List.splitOn_ne_nil _ _)
        | cons m' ms =>
          rw [hsplit] at ih
          intro m hm b hb
          rw [List.modifyHead_cons] at hm
          rcases List.mem_cons.1 hm with rfl | hm
          · rcases List.mem_cons.1 hb with rfl | hb
            · exact List.mem_cons_self
            · exact List.mem_cons_of_mem c (ih m' (by simp) b hb)
          · exact List.mem_cons_of_mem c (ih m (List.mem_cons_of_mem m' hm) b hb)
  exact h (hsub target n hn.1 0 hzero)

theorem nameString_cString (h : 0 ∉ name) : CString (nameString name) name where
  chars := by
    intro j hj
    rw [nameString, List.getD_eq_getElem?_getD, List.getElem?_eq_getElem hj]
    rfl
  nul := by
    rw [nameString, List.getD_eq_getElem?_getD, List.getElem?_eq_none (Nat.le_refl _)]
    rfl
  noNul := h

/-! ## The nodes that `find` sees -/

/-- Where `find` starts with a path. -/
theorem Shows.start_eq {fs : Ext2} (hshows : Shows fs F) (dir : Nat) (path : List UInt8) :
    (if isAbsolute path = true then F.root else dir) = Volume.start dir path := by
  rw [hshows.root]
  rfl

section Seen

variable (hdisk : Formatted disk) (hstored : Stored disk v) (hshows : Shows (fileSystemOn disk) F)

include hdisk hstored

/-- What is on the volume is found by `get_node`, and is a node of the device. -/
theorem Stored.getNode {c : Content} (hc : v.content i = some c) :
    (fileSystemOn disk).getNode i = .node (nodeOn disk i) ∧ (nodeOn disk i).Holds c := by
  obtain ⟨hpos, hle, hholds⟩ := hstored i c hc
  exact ⟨hdisk.getNode_eq hpos hle, hholds⟩

/-- **`find_one`** in a stored directory finds what the volume has under the name. -/
theorem findOne_child {entries : List (List UInt8 × Nat)}
    (hshows : Shows (fileSystemOn disk) F) (hdir : v.content dir = some (.directory entries))
    (hname : 0 ∉ name) : F.findOne dir name = ((v.child dir name).map Lookup.node).getD .null := by
  obtain ⟨hnode, _, hin, rs, hrecords, hhidden, hentries⟩ := hstored.getNode hdisk hdir
  have hmounted := hdisk.mounted dir
  have hrecords' : Records (nodeOn disk dir).device 0 rs :=
    hrecords.congr (show (nodeOn disk dir).device.sizeInBytes = (nodeOn disk dir).io.sizeInBytes from rfl)
      fun o ho => Ext2.Node.device_byte hmounted hin ho
  have hends : Loops.Ends (findOneRound (fileSystemOn disk) (nodeOn disk dir).device (nameString name)) 0
      (firstNamed (fileSystemOn disk) rs name) :=
    findOne_ends hmounted.pos hmounted.size (nameString_cString hname) hrecords'
  have hchild : v.child dir name = if usedInode rs name = 0 then none else some (usedInode rs name) := by
    rw [Volume.child, hdir]
    simp only
    rw [hentries, lookup_used]
  rw [hshows.ends dir _ hnode name _ hends, firstNamed_eq (hhidden name)]
  by_cases hzero : usedInode rs name = 0
  · rw [hchild, if_pos hzero, hzero, getNode_zero]
    rfl
  · rw [if_neg hzero] at hchild
    obtain ⟨c, hc⟩ := Option.isSome_iff_exists.1 (Volume.child_isSome hchild)
    rw [hchild, (hstored.getNode hdisk hc).1]
    rfl

include hshows

theorem isDir_iff {c : Content} (hc : v.content i = some c) :
    (F.node i).isDir = true ↔ ∃ entries, c = .directory entries := by
  obtain ⟨hnode, hholds⟩ := hstored.getNode hdisk hc
  have hmode := hshows.mode i _ hnode
  rw [Node.isDir, Node.getType, hmode]
  cases c with
  | file bytes => simp [hholds.1]
  | directory entries => simp [hholds.1]
  | link target => simp [hholds.1]

theorem isSymlink_iff {c : Content} (hc : v.content i = some c) :
    (F.node i).isSymlink = true ↔ v.IsLink i := by
  obtain ⟨hnode, hholds⟩ := hstored.getNode hdisk hc
  have hmode := hshows.mode i _ hnode
  rw [Node.isSymlink, Node.getType, hmode, Volume.IsLink, hc]
  cases c with
  | file bytes => simp [hholds.1]
  | directory entries => simp [hholds.1]
  | link target => simp [hholds.1]

/-- The target of a stored link. -/
theorem target_eq (hc : v.content i = some (.link target)) :
    (F.node i).target = target ∧ 0 ∉ target ∧ target.length < 4294967296 := by
  obtain ⟨hnode, _, hnul, hlen, hshort, hlong⟩ := hstored.getNode hdisk hc
  have hmounted := hdisk.mounted i
  have hio := hshows.io i _ hnode
  have hsize : (F.node i).sizeInBytes = target.length := by
    rw [Node.sizeInBytes, hio]
    exact hlen
  refine ⟨?_, hnul, by rw [← hlen]; exact hmounted.size⟩
  rw [Node.target, hsize]
  by_cases hlt : target.length < 60
  · rw [if_pos hlt]
    refine Eq.trans (List.map_congr_left fun j hj => ?_) (hshort hlt)
    have := List.mem_range.1 hj
    exact hshows.direct0 i _ hnode j (by omega)
  · obtain ⟨hin, hbytes⟩ := hlong (by omega)
    rw [if_neg hlt, hio, Ext2.Node.device_bytesFrom hmounted hin (by omega), ← hlen, hbytes]

/-! ## The walk -/

/-- What the end of a walk says of where the names lead. -/
def Walked (v : Volume) (dir : Nat) (names : List (List UInt8)) : FileSystem.Walk → Prop
  | .ends (.node m) => ∀ links i, v.Leads links dir names i ↔ links = 0 ∧ i = m
  | .ends .null => ∀ links i, ¬ v.Leads links dir names i
  | .ends .stops => False
  | .link d next rest => (v.content d).isSome ∧ rest ≠ [] ∧ NoNul rest ∧
      ∃ target, v.content next = some (.link target) ∧ ∀ links i, v.Leads links dir names i ↔
        ∃ k, links = k + 1 ∧ v.Leads k (Volume.start d target) (namesOf target ++ rest) i

omit hdisk hstored hshows in
/-- The end of a walk says the same of all names that lead where these do. -/
theorem Walked.congr {dir' : Nat} {names' : List (List UInt8)} {w : FileSystem.Walk}
    (hsame : ∀ links i, v.Leads links dir' names' i ↔ v.Leads links dir names i) (h : Walked v dir names w) :
    Walked v dir' names' w := by
  cases w with
  | ends result =>
    cases result with
    | node m => exact fun links i => (hsame links i).trans (h links i)
    | null => exact fun links i hleads => h links i ((hsame links i).1 hleads)
    | stops => exact h
  | link d next rest =>
    obtain ⟨hsome, hrest, hnul, target, hlink, hleads⟩ := h
    exact ⟨hsome, hrest, hnul, target, hlink, fun links i => (hsame links i).trans (hleads links i)⟩

/-- **The walk**, by induction on the names. -/
theorem walk_walked : ∀ {names : List (List UInt8)} {dir : Nat}, (v.content dir).isSome → NoNul names →
    Walked v dir names (F.walk dir names) := by
  intro names
  induction names with
  | nil =>
    intro dir _ _
    exact fun links i => Volume.leads_nil
  | cons name rest ih =>
    intro dir hsome hnul
    obtain ⟨c, hc⟩ := Option.isSome_iff_exists.1 hsome
    rw [FileSystem.walk]
    by_cases hdir : ∃ entries, c = .directory entries
    · rw [if_pos ((isDir_iff hdisk hstored hshows hc).2 hdir)]
      obtain ⟨entries, rfl⟩ := hdir
      rw [findOne_child hdisk hstored hshows hc (hnul name List.mem_cons_self)]
      cases hchild : v.child dir name with
      | none => exact fun links i => Volume.leads_none hchild
      | some next =>
        have hnext := Volume.child_isSome hchild
        obtain ⟨c', hc'⟩ := Option.isSome_iff_exists.1 hnext
        have hkind := isSymlink_iff hdisk hstored hshows hc'
        show Walked v dir (name :: rest)
          (if (F.node next).isSymlink = true ∧ rest ≠ [] then .link dir next rest else F.walk next rest)
        by_cases hlink : v.IsLink next ∧ rest ≠ []
        · obtain ⟨⟨target, htarget⟩, hmore⟩ := hlink
          rw [if_pos ⟨hkind.2 ⟨target, htarget⟩, hmore⟩]
          exact ⟨hsome, hmore, hnul.tail, target, htarget,
            fun links i => Volume.leads_through hchild htarget hmore⟩
        · rw [if_neg (fun h => hlink ⟨hkind.1 h.1, h.2⟩)]
          exact (ih hnext hnul.tail).congr fun links i => Volume.leads_down hchild hlink
    · rw [if_neg (fun h => hdir ((isDir_iff hdisk hstored hshows hc).1 h))]
      refine fun links i => Volume.leads_none (Volume.child_eq_none fun entries h => hdir ⟨entries, ?_⟩)
      rw [hc] at h
      exact Option.some.inj h

/-! ## From link to link -/

/-- **The resolution**, by induction on the links that may still be met: it ends in an i-number exactly if the
    names lead there through fewer links, and never in a failed assertion. -/
theorem resolveNames_leads : ∀ {links dir : Nat} {names : List (List UInt8)}, (v.content dir).isSome →
    NoNul names → (F.resolveNames links dir names).2 ≠ .stops ∧
      ∀ i, (F.resolveNames links dir names).2 = .node i ↔ ∃ k, k < links ∧ v.Leads k dir names i := by
  intro links
  induction links with
  | zero =>
    intro dir names _ _
    rw [FileSystem.resolveNames]
    simp
  | succ links ih =>
    intro dir names hsome hnul
    have hwalk := walk_walked hdisk hstored hshows hsome hnul
    rw [FileSystem.resolveNames]
    cases hw : F.walk dir names with
    | ends result =>
      rw [hw] at hwalk
      cases result with
      | node m =>
        refine ⟨by simp, fun i => ?_⟩
        constructor
        · intro h
          exact ⟨0, Nat.succ_pos links, (hwalk 0 i).2 ⟨rfl, (Lookup.node.inj h).symm⟩⟩
        · rintro ⟨k, _, hleads⟩
          rw [((hwalk k i).1 hleads).2]
      | null =>
        refine ⟨by simp, fun i => ?_⟩
        constructor
        · intro h
          cases h
        · rintro ⟨k, _, hleads⟩
          exact absurd hleads (hwalk k i)
      | stops => exact absurd hwalk id
    | link d next rest =>
      rw [hw] at hwalk
      obtain ⟨hd, _, hrest, target, hlink, hleads⟩ := hwalk
      obtain ⟨htarget, htargetNul, _⟩ := target_eq hdisk hstored hshows hlink
      have hall := (namesOf_noNul htargetNul).append hrest
      obtain ⟨hstops, hiff⟩ := ih (Volume.start_isSome hd target) hall
      simp only
      rw [htarget, hshows.start_eq]
      refine ⟨hstops, fun i => (hiff i).trans ?_⟩
      constructor
      · rintro ⟨k, hk, h⟩
        exact ⟨k + 1, Nat.succ_lt_succ hk, (hleads (k + 1) i).2 ⟨k, rfl, h⟩⟩
      · rintro ⟨k, hk, h⟩
        obtain ⟨k', rfl, h'⟩ := (hleads k i).1 h
        exact ⟨k', Nat.lt_of_succ_lt_succ hk, h'⟩

/-- Where the byte behind each target is a NUL on the stack, the links read as their targets. -/
theorem linksRead_of_nul {stack : Nat → Nat → UInt8}
    (hstack : ∀ i target, v.content i = some (.link target) → ∀ k, stack k target.length = 0) :
    ∀ {links dir : Nat} {names : List (List UInt8)}, (v.content dir).isSome → NoNul names →
      F.LinksReadNames stack links dir names := by
  intro links
  induction links with
  | zero =>
    intro dir names _ _
    rw [FileSystem.LinksReadNames]
    trivial
  | succ links ih =>
    intro dir names hsome hnul
    have hwalk := walk_walked hdisk hstored hshows hsome hnul
    rw [FileSystem.LinksReadNames]
    cases hw : F.walk dir names with
    | ends result => trivial
    | link d next rest =>
      rw [hw] at hwalk
      obtain ⟨hd, _, hrest, target, hlink, _⟩ := hwalk
      obtain ⟨htarget, htargetNul, hlen⟩ := target_eq hdisk hstored hshows hlink
      have hall := (namesOf_noNul htargetNul).append hrest
      refine ⟨?_, ?_⟩
      · refine FileSystem.linkPath_of_nul (by rw [htarget]; exact hlen) (by rw [htarget]; exact htargetNul) ?_
        rw [htarget]
        exact hstack next target hlink _
      · rw [htarget, hshows.start_eq]
        exact ih (Volume.start_isSome hd target) hall

end Seen

/-! ## The result -/

/-- **A mounted volume**: every device that holds a volume in an ext2 file system is mounted, with the root of
    the volume.  From then on, whatever directory of the volume it starts from, `find` finds the node of a path
    exactly if the path stands for it, and fails no assertion, as long as the buffers of links read as their
    targets; and whatever part of a file is read, all of it that is there is delivered, as it is on the
    volume.

    All this is said of reads that come back with the bytes of the device.  Those through the buffer cache do
    so one after the other as long as each of them fits; one that does not can fail the assertion of
    `read_block`. -/
theorem mounted_volume (ide : Ide) (sizeInBytes : Nat) (v : Volume) (hdisk : Formatted (ide.io sizeInBytes))
    (hstored : Stored (ide.io sizeInBytes) v) :
    (∀ st, FittingReads ide st → ∀ b buffer, EvictFits st b → ∃ c' buffer',
      st.1.readBlock b buffer = some (c', buffer') ∧ FittingReads ide (c', b :: st.2) ∧
        ∀ i, i < ide.blockSize → buffer' i = (ide.io sizeInBytes).readBlock b i) ∧
    ∃ fs root, mount (ide.io sizeInBytes) = some (fs, root) ∧ root.number = 2 ∧ root.data.isDir = true ∧
      (∀ F, Shows fs F → ∀ (stack : Nat → Nat → UInt8) (dir : Nat) (path : List UInt8),
        (v.content dir).isSome → 0 ∉ path → F.LinksRead stack dir path →
          F.find stack dir path ≠ .stops ∧
          ∀ i, F.find stack dir path = .node i ↔ v.Finds dir path i) ∧
      ∀ i bytes, v.content i = some (.file bytes) → ∃ n, fs.getNode i = .node n ∧
        (∀ offset, offset < bytes.length → (n.blockBytes (offset / n.blockSize)).isSome) ∧
        ∀ offset count, offset ≤ bytes.length →
          n.device.readAllCount offset count 0 = some (min count (bytes.length - offset)) ∧
          n.device.readAll offset count = (bytes.drop offset).take count := by
  refine ⟨fun st h b buffer hfit => h.answers hfit buffer, ?_⟩
  generalize ide.io sizeInBytes = disk at hdisk hstored ⊢
  obtain ⟨entries, hroot⟩ := v.root
  refine ⟨fileSystemOn disk, nodeOn disk 2, hdisk.mount_eq, rfl, ?_, ?_, ?_⟩
  · have hmode : (nodeOn disk 2).data.mode / 4096 = 4 := (hstored.getNode hdisk hroot).2.1
    rw [NodeData.isDir, hmode]
    rfl
  · intro F hshows stack dir path hdir hpath hread
    have hstart := hshows.start_eq dir path
    have hfind : F.find stack dir path = (F.resolveNames 100 (Volume.start dir path) (namesOf path)).2 := by
      rw [FileSystem.find, FileSystem.findLinks, Path.parse_eq, FileSystem.findLoop_root (by omega), hstart]
      rw [FileSystem.LinksRead, hstart] at hread
      have hsame := (FileSystem.findLoop_eq_iff 100 (Volume.start dir path) (namesOf path) (Nat.le_refl _)
        (fun n hn => name_of_mem hn) (by omega)).2 hread
      rw [hsame]
    rw [hfind]
    exact resolveNames_leads hdisk hstored hshows (Volume.start_isSome hdir path) (namesOf_noNul hpath)
  · intro i bytes hfile
    obtain ⟨hnode, _, hin, hbytes⟩ := hstored.getNode hdisk hfile
    have hmounted := hdisk.mounted i
    have hlen : bytes.length = (nodeOn disk i).data.sizeLow := by rw [← hbytes, BlockIo.bytesFrom_length]
    refine ⟨nodeOn disk i, hnode, fun offset hoff => ?_, fun offset count hoff => ?_⟩
    · rw [Ext2.Node.blockBytes_eq hmounted hin (by omega)]
      rfl
    · have hle : offset ≤ (nodeOn disk i).device.sizeInBytes := Nat.le_trans hoff (Nat.le_of_eq hlen)
      have hsize : (nodeOn disk i).device.sizeInBytes = bytes.length := hlen.symm
      have hcount := BlockIo.readAllCount_eq hmounted.pos count offset 0 hle
      have hall := BlockIo.readAll_eq hmounted.pos count offset hle
      rw [hsize] at hcount hall
      rw [Nat.zero_add] at hcount
      refine ⟨hcount, hall.trans ?_⟩
      rw [Ext2.Node.device_bytesFrom hmounted hin (by omega), hlen, ← hbytes,
        bytesFrom_part (Nat.le_trans hoff (Nat.le_of_eq hlen))]

/-- The volume on the device of eight blocks. -/
def tinyVolume : Volume where
  content := fun i =>
    if i = 2 then some (.directory [([108], 3), ([100], 4)])
    else if i = 3 then some (.link [100])
    else if i = 4 then some (.directory [([120], 5)])
    else if i = 5 then some (.file [104, 105])
    else none
  root := ⟨_, rfl⟩
  closed := by
    intro d entries hd name i hi
    by_cases h2 : d = 2
    · rw [if_pos h2] at hd
      obtain rfl := Content.directory.inj (Option.some.inj hd)
      simp only [List.mem_cons, Prod.mk.injEq, List.not_mem_nil, or_false] at hi
      rcases hi with ⟨_, rfl⟩ | ⟨_, rfl⟩
      · rfl
      · rfl
    · by_cases h4 : d = 4
      · rw [h4] at hd
        obtain rfl := Content.directory.inj (Option.some.inj hd)
        simp only [List.mem_cons, Prod.mk.injEq, List.not_mem_nil, or_false] at hi
        rw [hi.2]
        rfl
      · exfalso
        rw [if_neg h2, if_neg h4] at hd
        split_ifs at hd
        · cases hd
        · cases hd

/-- A node of one block. -/
theorem allInside_one {n : Ext2.Node} (hsize : n.data.sizeLow ≤ n.blockSize)
    (hin : (n.data.direct 0 + 1) * n.blockSize ≤ n.bufferCache.sizeInBytes) : n.AllInside := by
  intro offset hoff path hpath
  rw [Nat.div_eq_of_lt (by omega)] at hpath ⊢
  rw [List.prefix_nil.1 hpath]
  exact Or.inr hin

theorem notHidden {rs : List DirRecord} (hused : ∀ r ∈ rs, r.inode ≠ 0) (name : List UInt8) :
    ¬ Hidden rs name := by
  rintro ⟨r, hfind, hzero, _⟩
  exact hused r (List.mem_of_find?_eq_some hfind) hzero

theorem tinyDisk_stored : Stored tinyDisk tinyVolume := by
  intro i c hc
  have hcount : (superBlock tinyDisk).inodesCount = 16 := by decide +kernel
  rw [hcount]
  by_cases h2 : i = 2
  · obtain rfl := h2
    obtain rfl := Option.some.inj hc
    have h₁ : RecordAt (nodeOn tinyDisk 2).io 0 ⟨3, 12, [108]⟩ := ⟨by decide +kernel, by decide +kernel,
      by decide +kernel, by decide +kernel, by decide, by decide, by decide⟩
    have h₂ : RecordAt (nodeOn tinyDisk 2).io 12 ⟨4, 1012, [100]⟩ := ⟨by decide +kernel, by decide +kernel,
      by decide +kernel, by decide +kernel, by decide, by decide, by decide⟩
    have hend : 12 + 1012 = (nodeOn tinyDisk 2).io.sizeInBytes := by decide +kernel
    have hrecords : Records (nodeOn tinyDisk 2).io 0 [⟨3, 12, [108]⟩, ⟨4, 1012, [100]⟩] := ⟨h₁, h₂, hend⟩
    exact ⟨by decide, by decide, by decide +kernel, allInside_one (by decide +kernel) (by decide +kernel), _,
      hrecords, notHidden (by decide), rfl⟩
  · by_cases h3 : i = 3
    · obtain rfl := h3
      obtain rfl := Option.some.inj hc
      exact ⟨by decide, by decide, by decide +kernel, by decide, by decide +kernel, fun _ => by decide +kernel,
        fun h => absurd h (by decide)⟩
    · by_cases h4 : i = 4
      · obtain rfl := h4
        obtain rfl := Option.some.inj hc
        have h₁ : RecordAt (nodeOn tinyDisk 4).io 0 ⟨5, 1024, [120]⟩ := ⟨by decide +kernel, by decide +kernel,
          by decide +kernel, by decide +kernel, by decide, by decide, by decide⟩
        have hend : 0 + 1024 = (nodeOn tinyDisk 4).io.sizeInBytes := by decide +kernel
        have hrecords : Records (nodeOn tinyDisk 4).io 0 [⟨5, 1024, [120]⟩] := ⟨h₁, hend⟩
        exact ⟨by decide, by decide, by decide +kernel,
          allInside_one (by decide +kernel) (by decide +kernel), _, hrecords, notHidden (by decide), rfl⟩
      · have hfile : i = 5 ∧ c = .file [104, 105] := by
          show i = 5 ∧ c = _
          have hc' : (if i = 5 then some (Content.file [104, 105]) else none) = some c := by
            rw [← hc]
            show _ = if i = 2 then _ else _
            rw [if_neg h2, if_neg h3, if_neg h4]
          split_ifs at hc' with h5
          · exact ⟨h5, (Option.some.inj hc').symm⟩
        obtain ⟨rfl, rfl⟩ := hfile
        exact ⟨by decide, by decide, by decide +kernel, allInside_one (by decide +kernel) (by decide +kernel),
          by decide +kernel⟩

/-- The path `l/x` leads through the link to the file. -/
theorem tinyVolume_finds : tinyVolume.Finds 2 [108, 47, 120] 5 := by
  have hx : tinyVolume.Leads 0 4 [[120]] 5 := .down rfl (Or.inl rfl) (.here 5)
  have hd : tinyVolume.Leads 0 2 [[100], [120]] 5 := by
    refine .down (show tinyVolume.child 2 [100] = some 4 from rfl) (Or.inr ?_) hx
    rintro ⟨target, h⟩
    cases h
  have hl : tinyVolume.Leads 1 2 [[108], [120]] 5 :=
    .through (show tinyVolume.child 2 [108] = some 3 from rfl)
      (show tinyVolume.content 3 = some (.link [100]) from rfl) (List.cons_ne_nil _ _) hd
  exact ⟨1, by decide, hl⟩

/-- The volume on that device, and the first read of its cache. -/
theorem mounted_volume_tinyDisk : (∃ c buffer, (BufferCache.make ⟨512, tinyDisk.readBlock⟩).readBlock 4
      (fun _ => 0) = some (c, buffer) ∧ buffer 8 = 3) ∧
    ∃ fs root F, mount tinyDisk = some (fs, root) ∧ Shows fs F ∧
      F.find (fun _ _ => 0) 2 [108, 47, 120] = .node 5 ∧
      ∃ n, fs.getNode 5 = .node n ∧ n.device.readAll 0 100 = [104, 105] := by
  obtain ⟨hcache, fs, root, hmount, _, _, hfind, hfile⟩ :=
    mounted_volume ⟨512, tinyDisk.readBlock⟩ 8192 tinyVolume tinyDisk_formatted tinyDisk_stored
  have hfits : EvictFits (BufferCache.make ⟨512, tinyDisk.readBlock⟩, []) 4 := fun _ hfull =>
    absurd hfull (by decide)
  obtain ⟨c, buffer, hread, _, hbytes⟩ := hcache _ (Runs.Guarded.start rfl) 4 (fun _ => 0) hfits
  have hbyte : buffer 8 = 3 := (hbytes 8 (by decide)).trans (by decide +kernel)
  refine ⟨⟨c, buffer, hread, hbyte⟩, ?_⟩
  have hfs : fs = fileSystemOn tinyDisk :=
    (Prod.mk.inj (Option.some.inj (hmount.symm.trans tinyDisk_formatted.mount_eq))).1
  obtain ⟨F, hshows⟩ := exists_shows fs (by rw [hfs]; decide +kernel)
  have hread : F.LinksRead (fun _ _ => 0) 2 [108, 47, 120] :=
    linksRead_of_nul tinyDisk_formatted tinyDisk_stored (hfs ▸ hshows) (fun _ _ _ _ => rfl) rfl
      (namesOf_noNul (by decide))
  have hfound := (hfind F hshows (fun _ _ => 0) 2 [108, 47, 120] rfl (by decide) hread).2 5
  obtain ⟨n, hn, _, hbytes⟩ := hfile 5 [104, 105] rfl
  exact ⟨fs, root, F, hmount, hshows, hfound.2 tinyVolume_finds, n, hn, (hbytes 0 100 (by decide)).2⟩

end BadApple
