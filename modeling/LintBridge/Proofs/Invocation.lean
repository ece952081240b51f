import LintBridge.Proofs.Canonical
import LintBridge.Proofs.Partition
import Mathlib

/-!
# LintBridge.Proofs.Invocation

How the linter is told about a file, and how a file is recognised in what it reports. The two are
inverse to each other: seen from the directory that the linter runs in, the name that it is given
leads to the file and to no other, be the file below that directory, above it or beside it.

The name goes up from the directory to what both have in common and down from there to the file
(`Path.exists_shared`). No link is on the way down to a canonical path, so that going up again
cancels it part by part (`Disk.canonical_around`).

Main result: `Disk.invocation_leadsBack`.
-/

namespace LintBridge

/-! ### Relative paths and their texts -/

namespace Path

variable {parts : List Spelling} {p base : Path}

/-- No part of a path holds a slash, so that a text keeps the parts apart. -/
def SlashFree (parts : List Spelling) : Prop :=
  ∀ part ∈ parts, .char '/' ∉ part

theorem slashFree_pieces (text : Spelling) : SlashFree (pieces text) := by
  unfold pieces SlashFree
  induction text with
  | nil => simp [List.splitOn]
  | cons c rest ih =>
    intro piece hpiece
    rw [List.splitOn_cons_eq_if_modifyHead] at hpiece
    split at hpiece
    · rcases List.mem_cons.1 hpiece with rfl | hpiece
      · simp
      · exact ih piece hpiece
    next hc =>
      -- the letter belongs to the first piece of the rest
      cases hrest : rest.splitOn (.char '/') with
      | nil => simp [hrest] at hpiece
      | cons first others =>
        rw [hrest] at ih hpiece
        rcases List.mem_cons.1 hpiece with rfl | hpiece
        · have hslash : .char '/' ≠ c := fun he => hc (beq_iff_eq.2 he.symm)
          simp [hslash, ih first (List.mem_cons_self ..)]
        · exact ih piece (List.mem_cons_of_mem _ hpiece)

theorem slashFree_ofText (text : Spelling) : SlashFree (ofText text).parts :=
  fun part hpart => slashFree_pieces text part (List.mem_filter.1 hpart).1

theorem pieces_joined (h : SlashFree parts) (hne : parts ≠ []) : pieces (joined parts) = parts :=
  List.splitOn_intercalate _ h hne

theorem anchorOf_of_counts (h : ∀ part ∈ parts, counts part = true) :
    anchorOf parts = .relative := by
  have hempty : [] ∉ parts := fun hmem => absurd (h [] hmem) (by decide)
  unfold anchorOf
  split
  · simp at hempty
  · simp at hempty
  · simp at hempty
  · simp at hempty
  · rfl

/-- The text of a relative path spells the path. -/
theorem ofText_toText (h : SlashFree parts) (hcounts : ∀ part ∈ parts, counts part = true) :
    ofText (toText ⟨.relative, parts⟩) = ⟨.relative, parts⟩ := by
  cases parts with
  | nil => decide +kernel
  | cons first rest =>
    have htext : toText ⟨.relative, first :: rest⟩ = joined (first :: rest) := rfl
    rw [ofText, htext, pieces_joined h (List.cons_ne_nil _ _), ofPieces,
      anchorOf_of_counts hcounts, List.filter_eq_self.2 hcounts]

/-- Two lists of names go the same way for as long as they have names in common. -/
theorem exists_shared (ps bs : List Spelling) : ∃ shared down rest, bs = shared ++ down ∧
    ps = shared ++ rest ∧ shared.length = commonLength ps bs := by
  induction ps generalizing bs with
  | nil => exact ⟨[], bs, [], rfl, rfl, rfl⟩
  | cons x xs ih =>
    cases bs with
    | nil => exact ⟨[], [], x :: xs, rfl, rfl, rfl⟩
    | cons y ys =>
      by_cases h : x = y
      · subst h
        obtain ⟨shared, down, rest, rfl, rfl, hlength⟩ := ih ys
        exact ⟨x :: shared, down, rest, rfl, rfl, by simp [commonLength, ← hlength]⟩
      · exact ⟨[], y :: ys, x :: xs, rfl, rfl, by simp [commonLength, h]⟩

theorem commonLength_append (bs rest : List Spelling) :
    commonLength (bs ++ rest) bs = bs.length := by
  induction bs with
  | nil => cases rest <;> rfl
  | cons b bs ih => simp [commonLength, ih]

/-- Below a directory there is nothing to go up. -/
theorem relativeTo_of_within? {text : Spelling} (h : p.within? base = some text) :
    p.relativeTo base = text := by
  unfold within? at h
  split at h
  next hbelow =>
    obtain ⟨rest, hrest⟩ := hbelow.2
    rw [← Option.some.inj h, relativeTo, ← hrest, commonLength_append]
    simp
  next => simp at h

end Path

namespace Node

variable {tree : Node} {place names dest : List Spelling} {n : Nat}

/-- No way leads to a name with a slash in it. -/
theorem Leads.slashFree (h : Leads tree place names n dest) (hplace : Path.SlashFree place)
    (hnames : Path.SlashFree names) : Path.SlashFree dest := by
  induction h with
  | arrived => exact hplace
  | stay _ _ ih => exact ih hplace fun x hx => hnames x (List.mem_cons_of_mem _ hx)
  | up _ ih =>
    exact ih (fun x hx => hplace x (List.dropLast_subset _ hx))
      fun x hx => hnames x (List.mem_cons_of_mem _ hx)
  | @enter place rest _ name _ _ _ _ ih =>
    refine ih (fun x hx => ?_) fun x hx => hnames x (List.mem_cons_of_mem _ hx)
    rcases List.mem_append.1 hx with hx | hx
    · exact hplace x hx
    · exact hnames x (List.mem_singleton.1 hx ▸ List.mem_cons_self ..)
  | @link place _ _ _ _ target _ _ _ _ _ _ ihInner ihNext =>
    have hstart : Path.SlashFree (linkStart place target) := by
      unfold linkStart
      split
      · exact fun x hx => absurd hx List.not_mem_nil
      · exact hplace
    exact ihNext (ihInner hstart (Path.slashFree_pieces target))
      fun x hx => hnames x (List.mem_cons_of_mem _ hx)

end Node

namespace Disk

open Node

variable {disk : Disk} {f base : Path} {workspace : Option Path} {shared down rest : List Spelling}

/-! ### Canonical paths of texts -/

/-- The path is the canonical path of some text. -/
def IsCanonical (disk : Disk) (f : Path) : Prop :=
  ∃ text, disk.canonical (.ofText text) = .ok f

/-- A home directory is spelled out, too. -/
theorem slashFree_expandHome {p q : Path} (h : disk.expandHome p = .ok q)
    (hp : Path.SlashFree p.parts) : Path.SlashFree q.parts := by
  unfold expandHome at h
  split at h
  next first rest hrel hparts =>
    split at h
    · split at h
      · simp at h
      · split at h
        next home _ =>
          obtain rfl := Except.ok.inj h
          intro x hx
          unfold Path.join at hx
          split at hx
          · exact hp x (hparts ▸ List.mem_cons_of_mem _ hx)
          · rcases List.mem_append.1 hx with hx | hx
            · exact Path.slashFree_ofText home x hx
            · exact hp x (hparts ▸ List.mem_cons_of_mem _ hx)
        · simp at h
    · exact Except.ok.inj h ▸ hp
  · exact Except.ok.inj h ▸ hp

/-- A path from the root that a text can spell and that no link is on the way to. -/
structure Plain (disk : Disk) (p : Path) : Prop where
  root : p.anchor = .root
  clear : Clear disk.tree p.parts
  nulFree : p.NulFree
  slashFree : Path.SlashFree p.parts

theorem Plain.canonical (h : disk.Plain f) : disk.canonical f = .ok f := by
  obtain ⟨anchor, names⟩ := f
  obtain rfl : anchor = .root := h.root
  exact canonical_of_clear h.clear h.nulFree

/-- In a tree without loops canonical paths are plain. -/
theorem IsCanonical.plain (hdisk : disk.Grounded) (hcurrent : Path.SlashFree disk.current)
    (hfree : disk.tree.LoopFree) (h : disk.IsCanonical f) : disk.Plain f := by
  obtain ⟨text, htext⟩ := h
  obtain ⟨q, n, hq, hl, hroot, hclear, hnul⟩ := leads_of_canonical hdisk hfree htext
  refine ⟨hroot, hclear, hnul, hl.slashFree ?_ ?_⟩
  · rw [place_start hdisk]
    split
    · exact fun x hx => absurd hx List.not_mem_nil
    · exact hcurrent
  · exact slashFree_expandHome hq (Path.slashFree_ofText text)

/-! ### Up and down again -/

/-- Going up cancels the names by which the way has gone down. -/
theorem along_up {enter : Way → Spelling → Except Fault Course} {seen : List (Path × Option Path)}
    (shared down rest : List Spelling) :
    disk.along enter ⟨⟨.root, shared ++ down⟩, seen⟩
        (List.replicate down.length (".." : Spelling) ++ rest) =
      disk.along enter ⟨⟨.root, shared⟩, seen⟩ rest := by
  induction down using List.reverseRecOn with
  | nil => simp
  | append_singleton down name ih =>
    have hcounts : Path.counts (".." : Spelling) = true := by decide
    have hup : Path.up ⟨.root, shared ++ (down ++ [name])⟩ = ⟨.root, shared ++ down⟩ := by
      rw [← List.append_assoc]
      simp [Path.up, Path.parent]
    rw [List.length_append, List.length_singleton, List.replicate_succ, List.cons_append, ← ih]
    simp only [along, hcounts, hup, Bool.not_true, Bool.false_eq_true, if_false, if_true]

/-- A way down to a place, up again and down to another one leads to the latter. -/
theorem canonical_around (hbase : Clear disk.tree (shared ++ down))
    (hbaseNul : Path.NulFree ⟨.root, shared ++ down⟩) (hf : Clear disk.tree (shared ++ rest))
    (hfNul : Path.NulFree ⟨.root, shared ++ rest⟩) :
    disk.canonical ⟨.root,
        shared ++ down ++ (List.replicate down.length (".." : Spelling) ++ rest)⟩ =
      .ok ⟨.root, shared ++ rest⟩ := by
  refine canonical_of_along hf hfNul fun enter => ?_
  have hdown : Clear disk.tree ([] ++ (shared ++ down)) := hbase
  have hway := along_append_of_clear enter [] hdown hbaseNul
    (List.replicate down.length (".." : Spelling) ++ rest)
  rw [List.nil_append, along_up shared down rest] at hway
  exact hway.trans (along_of_clear hf hfNul)

/-! ### The file that the linter is told about -/

/-- The linter runs in the workspace, or beside the file, and the name that it is given leads from
there to the file: for the operating system, and for whoever reads a report. -/
structure LeadsBack (disk : Disk) (workspace : Option Path) (f : Path) (at_ : Invocation) :
    Prop where
  directory : at_.directory = workspace.getD f.parent
  relative : (Path.ofText at_.target).isAbsolute = false
  resolved : disk.canonical (at_.directory.join (.ofText at_.target)) = .ok f
  reported : disk.reportedAs workspace (some f.parent) at_.target.toStr = .ok f
  /-- Records that are reported under the name are put down to the file. -/
  attributed : ∀ report : Report, (∀ entry ∈ report.entries, entry.1 = at_.target.toStr) →
    report.groupedFor disk workspace (some f.parent) f = .ok [(f, report.named.map (·.2))]

/-- Records that are all reported under a name of the file are put down to it. -/
theorem groupedFor_of_reported {fallback : Option Path} {name : Str}
    (hf : disk.canonical f = .ok f)
    (hname : disk.reportedAs workspace fallback name = .ok f) (report : Report)
    (hall : ∀ entry ∈ report.entries, entry.1 = name) :
    report.groupedFor disk workspace fallback f = .ok [(f, report.named.map (·.2))] := by
  have hentries : ∀ entry ∈ report.entries, ∃ file,
      disk.reportedAs workspace fallback entry.1 = .ok file :=
    fun entry hentry => ⟨f, hall entry hentry ▸ hname⟩
  obtain ⟨groups, hgroups⟩ := (Report.groupedFor_isOk_iff hf).2 hentries
  obtain ⟨file, hfile, rfl⟩ := Report.groupedFor_eq hgroups
  obtain rfl : f = file := Except.ok.inj (hf.symm.trans hfile)
  have habout : report.about disk workspace fallback f = report.entries.flatMap (·.2) := by
    rw [Report.about, List.filter_eq_self.2]
    intro entry hentry
    simp [Report.isNameOf, hall entry hentry, hname]
  rw [hgroups, habout, ← Report.flatMap_entries, List.map_flatMap]
  simp [Function.comp_def]

/-- The name leads back to the file if it is a relative one that leads there from the directory. -/
theorem LeadsBack.of_resolved {at_ : Invocation} (hf : disk.canonical f = .ok f)
    (hdirectory : at_.directory = workspace.getD f.parent)
    (hrelative : (Path.ofText at_.target).isAbsolute = false)
    (hresolved : disk.canonical (at_.directory.join (.ofText at_.target)) = .ok f) :
    disk.LeadsBack workspace f at_ := by
  have hreported : disk.reportedAs workspace (some f.parent) at_.target.toStr = .ok f := by
    rw [hdirectory] at hresolved
    rw [reportedAs_toStr, Disk.reported]
    rw [if_neg (by simp [hrelative])]
    cases workspace
    · exact hresolved
    · exact hresolved
  exact ⟨hdirectory, hrelative, hresolved, hreported, groupedFor_of_reported hf hreported⟩

/-- Seen from a workspace, a file is named by the way up and down again. -/
theorem leadsBack_relativeTo (hf : disk.Plain f) (hbase : disk.Plain base) :
    disk.LeadsBack (some base) f ⟨base, f.relativeTo base⟩ := by
  have hself := hf.canonical
  obtain ⟨anchor, names⟩ := f
  obtain ⟨anchor', bases⟩ := base
  obtain rfl : anchor = .root := hf.root
  obtain rfl : anchor' = .root := hbase.root
  obtain ⟨shared, down, rest, rfl, rfl, hlength⟩ := Path.exists_shared names bases
  have htarget : Path.ofText (Path.relativeTo ⟨.root, shared ++ rest⟩ ⟨.root, shared ++ down⟩) =
      ⟨.relative, List.replicate down.length (".." : Spelling) ++ rest⟩ := by
    unfold Path.relativeTo
    dsimp only
    rw [← hlength, List.length_append, Nat.add_sub_cancel_left, List.drop_left]
    refine Path.ofText_toText (fun part hpart => ?_) fun part hpart => ?_
    · rcases List.mem_append.1 hpart with hpart | hpart
      · rw [List.eq_of_mem_replicate hpart]
        decide
      · exact hf.slashFree part (List.mem_append_right _ hpart)
    · rcases List.mem_append.1 hpart with hpart | hpart
      · rw [List.eq_of_mem_replicate hpart]
        decide
      · exact (hf.clear.names part (List.mem_append_right _ hpart)).1
  refine .of_resolved hself rfl ?_ ?_
  · rw [htarget]
    rfl
  · rw [htarget]
    exact canonical_around hbase.clear hbase.nulFree hf.clear hf.nulFree

/-- Without a workspace, a file is named by its last part. -/
theorem leadsBack_name (hf : disk.Plain f) : disk.LeadsBack none f ⟨f.parent, f.name⟩ := by
  have hself := hf.canonical
  obtain ⟨anchor, names⟩ := f
  obtain rfl : anchor = .root := hf.root
  rcases List.eq_nil_or_concat' names with rfl | ⟨init, name, rfl⟩
  · -- the root directory has no name, and the empty text names it as seen from itself
    have htarget : Path.ofText [] = ⟨.relative, []⟩ := by decide +kernel
    refine .of_resolved hself rfl ?_ ?_
    · exact htarget ▸ rfl
    · exact htarget ▸ hself
  · have hname : Path.name ⟨.root, init ++ [name]⟩ = name := by simp [Path.name]
    have hparent : Path.parent ⟨.root, init ++ [name]⟩ = ⟨.root, init⟩ := by simp [Path.parent]
    have htarget : Path.ofText name = ⟨.relative, [name]⟩ := by
      have htext : Path.toText ⟨.relative, [name]⟩ = name := by
        simp [Path.toText, Path.joined]
      have hslash : Path.SlashFree [name] :=
        fun x hx => hf.slashFree x (List.mem_append_right _ hx)
      have hcounts : ∀ x ∈ [name], Path.counts x = true :=
        fun x hx => (hf.clear.names x (List.mem_append_right _ hx)).1
      have hspelled := Path.ofText_toText hslash hcounts
      rwa [htext] at hspelled
    rw [hname, hparent]
    refine .of_resolved hself hparent.symm ?_ ?_
    · rw [htarget]
      rfl
    · rw [htarget]
      exact hself

/-- In a tree without loops, the linter is told about a file by a name that leads back to it. -/
theorem invocation_leadsBack (hdisk : disk.Grounded) (hcurrent : Path.SlashFree disk.current)
    (hfree : disk.tree.LoopFree) (hf : disk.IsCanonical f)
    (hworkspace : ∀ base ∈ workspace, disk.IsCanonical base) :
    ∃ at_, disk.invocation f workspace = .ok at_ ∧ disk.LeadsBack workspace f at_ := by
  have hplain := hf.plain hdisk hcurrent hfree
  unfold invocation
  rw [hplain.canonical, ok_bind]
  cases workspace with
  | none => exact ⟨_, rfl, leadsBack_name hplain⟩
  | some base =>
    have hbase := (hworkspace base rfl).plain hdisk hcurrent hfree
    have htarget : (f.within? base).getD (f.relativeTo base) = f.relativeTo base := by
      cases hwithin : f.within? base with
      | none => rfl
      | some text => rw [Option.getD_some, Path.relativeTo_of_within? hwithin]
    dsimp only
    rw [hbase.canonical, ok_bind, htarget]
    exact ⟨_, rfl, leadsBack_relativeTo hplain hbase⟩

end Disk

namespace Sample

open Node

/-- A disk with a link from `/ws` to `/real`. -/
def linked : Disk where
  tree := .directory [("real", .directory [("~x", .file [] false)]), ("ws", .link "/real")]
  current := []
  homes := []

def tilde : Path := ⟨.root, ["real", "~x"]⟩

theorem target_linked {q : List Spelling} {target : Spelling}
    (h : linked.tree.linkTo? q = some target) : target = "/real" := by
  cases q with
  | nil => simp [linked, linkTo?, find?] at h
  | cons name rest =>
    rw [linked, linkTo?_directory] at h
    by_cases hreal : name = "real"
    · subst hreal
      cases rest with
      | nil => simp [linkTo?, find?] at h
      | cons name rest =>
        by_cases htilde : name = "~x"
        · subst htilde
          cases rest <;> simp [linkTo?, find?] at h
        · have hne : (name == "~x") = false := by simp [htilde]
          simp [linkTo?, find?, List.lookup_cons, hne] at h
    · have hne : (name == "real") = false := by simp [hreal]
      by_cases hws : name = "ws"
      · subst hws
        cases rest <;> simp [linkTo?, find?, List.lookup_cons, hne] at h
        exact h.symm
      · have hne' : (name == "ws") = false := by simp [hws]
        simp [List.lookup_cons, hne, hne'] at h

theorem loopFree_linked : linked.tree.LoopFree := by
  refine .of_targets fun q target hlink place => ?_
  obtain rfl := target_linked hlink
  have hpieces : pieces "/real" = [([] : Spelling), "real"] := by decide +kernel
  have hstart : linkStart place "/real" = [] := if_pos (by decide +kernel)
  rw [hpieces, hstart]
  exact ⟨0, ["real"], .stay rfl (.enter ⟨rfl, by decide⟩ rfl .arrived)⟩

theorem canonical_tilde : linked.canonical (.ofText "/ws/~x") = .ok tilde := by
  unfold tilde
  cbv

theorem canonical_missing :
    linked.canonical (.ofText "/none/there") = .ok ⟨.root, ["none", "there"]⟩ := by
  cbv

/-- The file is reached through a link, is called `~x` and lies outside the workspace, which does
not exist. -/
theorem invocation_leadsBack_tilde : ∃ at_,
    linked.invocation tilde (some ⟨.root, ["none", "there"]⟩) = .ok at_ ∧
      linked.LeadsBack (some ⟨.root, ["none", "there"]⟩) tilde at_ := by
  refine Disk.invocation_leadsBack .nil (by simp [linked, Path.SlashFree]) loopFree_linked
    ⟨_, canonical_tilde⟩ fun base hbase => ?_
  obtain rfl := Option.some.inj hbase
  exact ⟨_, canonical_missing⟩

end Sample

end LintBridge
