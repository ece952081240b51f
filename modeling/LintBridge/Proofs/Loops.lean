import LintBridge.Proofs.NormalForm

/-!
# LintBridge.Proofs.Loops

Canonical paths where links lead round in circles. A path `MeetsLoop` if whoever follows it reaches
nothing. What is left of it where it has met the loop is kept as it is spelled (`Disk.Remains`), and
with it every `..` that is left, which then cancels a name that no one has looked at. So the outcome
may hold links.

* `Disk.sound_follow`: links resolve to the place that a way leads to, or to what is left of it.
* `Disk.leads_of_sight`: what is left leads the operating system round in circles, too, if nothing
  on it goes up.

Main result: `Disk.canonical_canonical_iff`.
-/

namespace LintBridge

open LintBridge.Path

namespace Node

variable {tree : Node} {place names rest dest : List Spelling} {name target : Spelling} {n : Nat}

/-! ### Ways without loops -/

/-- Names that say nothing can be left out of a way. -/
theorem Leads.of_filter (h : Leads tree place (names.filter counts) n dest) :
    Leads tree place names n dest := by
  induction names generalizing place n with
  | nil => exact h
  | cons name rest ih =>
    by_cases hname : counts name = true
    · rw [List.filter_cons_of_pos hname] at h
      cases h with
      | stay hnot next => exact absurd hname (by simp [hnot])
      | up next => exact .up (ih next)
      | enter hname hlink next => exact .enter hname hlink (ih next)
      | link hname hlink inner next => exact .link hname hlink inner (ih next)
    · rw [List.filter_cons_of_neg hname] at h
      exact .stay (by simpa using hname) (ih h)

/-- A way along some names and on along others is one way. -/
theorem Leads.append {mid : List Spelling} {m : Nat} (h : Leads tree place names m mid)
    (hnext : Leads tree mid rest n dest) : ∃ k, Leads tree place (names ++ rest) k dest := by
  induction h with
  | arrived => exact ⟨n, hnext⟩
  | stay hname _ ih =>
    obtain ⟨k, hl⟩ := ih hnext
    exact ⟨k, .stay hname hl⟩
  | up _ ih =>
    obtain ⟨k, hl⟩ := ih hnext
    exact ⟨k, .up hl⟩
  | enter hname hlink _ ih =>
    obtain ⟨k, hl⟩ := ih hnext
    exact ⟨k, .enter hname hlink hl⟩
  | link hname hlink inner _ _ ih =>
    obtain ⟨k, hl⟩ := ih hnext
    exact ⟨_, .link hname hlink inner hl⟩

theorem find?_append (node : Node) (place rest : List Spelling) :
    node.find? (place ++ rest) = (node.find? place).bind fun inner => inner.find? rest := by
  induction place generalizing node with
  | nil => rfl
  | cons name others ih =>
    cases node with
    | directory entries =>
      cases hlookup : entries.lookup name with
      | none => simp [find?, hlookup]
      | some inner => simp [find?, hlookup, ih]
    | file => rfl
    | link => rfl

/-- Where there is no directory there is nothing below. -/
theorem find?_below (h : ¬ tree.IsDirectory place) (name : Spelling) :
    tree.find? (place ++ [name]) = none := by
  rw [find?_append]
  cases hplace : tree.find? place with
  | none => rfl
  | some node =>
    cases node with
    | directory entries => exact absurd ⟨entries, hplace⟩ h
    | file => rfl
    | link => rfl

/-- A way down from where there is no directory meets no links. -/
theorem leads_below (h : ¬ tree.IsDirectory place) (hup : (".." : Spelling) ∉ names) :
    ∃ n dest, Leads tree place names n dest := by
  induction names generalizing place with
  | nil => exact ⟨0, place, .arrived⟩
  | cons name rest ih =>
    obtain ⟨hname, hrest⟩ := List.ne_and_not_mem_of_not_mem_cons hup
    cases hcounts : counts name with
    | false =>
      obtain ⟨n, dest, hl⟩ := ih h hrest
      exact ⟨n, dest, .stay hcounts hl⟩
    | true =>
      have hnone := find?_below h name
      have hbelow : ¬ tree.IsDirectory (place ++ [name]) := by
        rintro ⟨entries, hentries⟩
        exact absurd (hnone.symm.trans hentries) (by simp)
      obtain ⟨n, dest, hl⟩ := ih hbelow hrest
      exact ⟨n, dest, .enter ⟨hcounts, Ne.symm hname⟩ (by rw [linkTo?, hnone]) hl⟩

end Node

namespace Disk

open Node

variable {disk : Disk} {tree : Node} {p q f : Path} {names dest : List Spelling} {n : Nat}

/-- Where the operating system meets a link, there is one, and the rest of the way is left. -/
theorem reach_eq_link {place inner rest : List Spelling} {target : Spelling}
    (h : reach tree place names = .link inner target rest) :
    (∃ name, tree.linkTo? (inner.reverse ++ [name]) = some target) ∧ rest <:+ names := by
  fun_induction reach tree place names with
  | case1 place => cases h
  | case2 place name others entries hplace hstay ih =>
    obtain ⟨hlink, hrest⟩ := ih h
    exact ⟨hlink, hrest.trans (List.suffix_cons _ _)⟩
  | case3 place others entries hplace hcounts ih =>
    obtain ⟨hlink, hrest⟩ := ih h
    exact ⟨hlink, hrest.trans (List.suffix_cons _ _)⟩
  | case4 => cases h
  | case5 place name others entries hplace hcounts hup found hlink =>
    cases h
    rw [List.reverse_cons] at hlink
    exact ⟨⟨name, by rw [linkTo?, hlink]⟩, List.suffix_cons _ _⟩
  | case6 place name others entries hplace hcounts hup node hlink hnode ih =>
    obtain ⟨hlink, hrest⟩ := ih h
    exact ⟨hlink, hrest.trans (List.suffix_cons _ _)⟩
  | case7 => cases h

/-- Without `..` a way goes on from wherever the operating system stops, except at a link. -/
theorem leads_of_reach {place : List Spelling} (hup : (".." : Spelling) ∉ names)
    (h : ∀ inner target rest, reach tree place names = .link inner target rest →
      ∃ n dest, Leads tree (linkStart inner.reverse target) (pieces target ++ rest) n dest) :
    ∃ n dest, Leads tree place.reverse names n dest := by
  fun_induction reach tree place names with
  | case1 place => exact ⟨0, _, .arrived⟩
  | case2 place name rest entries hplace hstay ih =>
    obtain ⟨n, dest, hl⟩ := ih (List.not_mem_of_not_mem_cons hup) h
    exact ⟨n, dest, .stay ((counts_eq_false_iff name).2 hstay) hl⟩
  | case3 => exact absurd List.mem_cons_self hup
  | case4 place name rest entries hplace hcounts hne hmissing =>
    rw [List.reverse_cons] at hmissing
    have hbelow : ¬ tree.IsDirectory (place.reverse ++ [name]) := by
      rintro ⟨inner, hinner⟩
      exact absurd (hmissing.symm.trans hinner) (by simp)
    obtain ⟨n, dest, hl⟩ := leads_below hbelow (List.not_mem_of_not_mem_cons hup)
    exact ⟨n, dest, .enter (isName_of_not hcounts hne) (by rw [linkTo?, hmissing]) hl⟩
  | case5 place name rest entries hplace hcounts hne target hlink =>
    rw [List.reverse_cons] at hlink
    obtain ⟨n, dest, hl⟩ := h place target rest rfl
    obtain ⟨m, mid, k, hinner, hnext⟩ := hl.split
    exact ⟨_, dest, .link (isName_of_not hcounts hne) (by rw [linkTo?, hlink]) hinner hnext⟩
  | case6 place name rest entries hplace hcounts hne node hlink hnode ih =>
    obtain ⟨n, dest, hl⟩ := ih (List.not_mem_of_not_mem_cons hup) h
    rw [List.reverse_cons] at hnode hl
    refine ⟨n, dest, .enter (isName_of_not hcounts hne) ?_ hl⟩
    rw [linkTo?, hnode]
    cases node with
    | link target => exact (hlink target rfl).elim
    | file bytes executable => rfl
    | directory entries => rfl
  | case7 place name rest hplace =>
    have hnot : ¬ tree.IsDirectory place.reverse := by
      rintro ⟨entries, hentries⟩
      exact hplace entries hentries
    exact leads_below hnot hup

/-- Where the operating system is not led round in circles, the way leads somewhere, if neither it
nor any link goes up. -/
theorem leads_of_sight
    (htree : ∀ q target, tree.linkTo? q = some target → (".." : Spelling) ∉ pieces target)
    (links : Nat) {place : List Spelling} (hup : (".." : Spelling) ∉ names)
    (h : sight tree links place names ≠ .looping) :
    ∃ n dest, Leads tree place.reverse names n dest := by
  induction links generalizing place names with
  | zero =>
    refine leads_of_reach hup fun inner target rest hreach => ?_
    rw [sight, hreach] at h
    exact absurd rfl h
  | succ links ih =>
    refine leads_of_reach hup fun inner target rest hreach => ?_
    obtain ⟨⟨name, hlink⟩, hrest⟩ := reach_eq_link hreach
    have hnext : (".." : Spelling) ∉ pieces target ++ rest := by
      rw [List.mem_append]
      exact not_or.2 ⟨htree _ _ hlink, fun hmem => hup (hrest.subset hmem)⟩
    rw [sight, hreach] at h
    have hon := ih hnext h
    unfold linkStart
    split at hon
    next habsolute =>
      rw [if_pos habsolute]
      exact hon
    next habsolute =>
      rw [if_neg habsolute]
      exact hon

/-! ### What is left of a way that meets a loop -/

/-- After no name do the rest of the names make a path from the root, as they do after two slashes
in a row. -/
def Unbroken (names : List Spelling) : Prop :=
  ∀ name rest, name :: rest <:+ names → counts name = true →
    (Path.ofPieces rest).isAbsolute = false

theorem Unbroken.of_counts (h : ∀ name ∈ names, counts name = true) : Unbroken names := by
  intro name rest hrest _
  have hrelative : anchorOf rest = .relative :=
    anchorOf_of_counts fun part hpart => h part (hrest.subset (List.mem_cons_of_mem _ hpart))
  simp [Path.ofPieces, Path.isAbsolute, hrelative]

theorem Unbroken.tail {name : Spelling} (h : Unbroken (name :: names)) : Unbroken names :=
  fun other rest hrest => h other rest (hrest.trans (List.suffix_cons _ _))

/-- No link goes up, and none breaks off to start from the root again. -/
structure Straight (disk : Disk) : Prop where
  up : ∀ place target, disk.tree.linkTo? place = some target → (".." : Spelling) ∉ pieces target
  unbroken : ∀ place target, disk.tree.linkTo? place = some target → Unbroken (pieces target)

/-- The way is at a place below the root that no link is on the way to, and so are the places that
the links on it are known to lead to. -/
structure Way.Sound (disk : Disk) (way : Way) : Prop where
  root : way.here.anchor = .root
  clear : Clear disk.tree way.here.parts
  known : ∀ key p, way.seen.lookup key = some (some p) →
    p.anchor = .root ∧ Clear disk.tree p.parts ∧
      ∃ n, LinkLeads disk.tree (disk.place key) n p.parts

/-- What is left of a way where it has met a loop: a path from the root that leads nowhere but where
the way would lead, and goes up only if the way does. -/
structure Remains (disk : Disk) (start names : List Spelling) (q : Path) : Prop where
  root : q.anchor = .root
  counts : ∀ part ∈ q.parts, counts part = true
  up : (".." : Spelling) ∉ names → (".." : Spelling) ∉ q.parts
  leads : ∀ n dest, Leads disk.tree [] q.parts n dest → ∃ m, Leads disk.tree start names m dest

/-- How a way from `start` along some names ends. -/
def Course.Sound (disk : Disk) (start names : List Spelling) : Course → Prop
  | .arrived way => way.Sound disk ∧ ∃ n, Leads disk.tree start names n way.here.parts
  | .looping q => disk.Remains start names q
  | .endless => True

variable {way : Way} {course : Course} {start mid rest : List Spelling} {name target : Spelling}

theorem Way.Sound.at (h : way.Sound disk) (hroot : p.anchor = .root)
    (hclear : Clear disk.tree p.parts) : ({ way with here := p } : Way).Sound disk :=
  ⟨hroot, hclear, h.known⟩

theorem Way.Sound.seen (h : way.Sound disk) (key : Path) (value : Option Path)
    (hvalue : ∀ p, value = some p → p.anchor = .root ∧ Clear disk.tree p.parts ∧
      ∃ n, LinkLeads disk.tree (disk.place key) n p.parts) :
    ({ way with seen := (key, value) :: way.seen } : Way).Sound disk := by
  refine ⟨h.root, h.clear, fun other p hp => ?_⟩
  rw [List.lookup_cons] at hp
  split at hp
  next heq =>
    obtain rfl : other = key := by simpa using heq
    exact hvalue p (Option.some.inj hp)
  · exact h.known other p hp

/-- One step further back. -/
theorem Course.Sound.back (h : course.Sound disk mid rest)
    (hup : (".." : Spelling) ∉ names → (".." : Spelling) ∉ rest)
    (hback : ∀ n dest, Leads disk.tree mid rest n dest → ∃ m, Leads disk.tree start names m dest) :
    course.Sound disk start names := by
  cases course with
  | arrived way =>
    obtain ⟨hway, n, hl⟩ := h
    exact ⟨hway, hback n _ hl⟩
  | looping q =>
    refine ⟨h.root, h.counts, fun hnames => h.up (hup hnames), fun n dest hl => ?_⟩
    obtain ⟨m, hm⟩ := h.leads n dest hl
    exact hback m dest hm
  | endless => trivial

theorem place_of_clear (hroot : p.anchor = .root) (hclear : Clear disk.tree p.parts) :
    disk.place p = p.parts := by
  have habsolute : p.isAbsolute = true := by simp [Path.isAbsolute, hroot]
  rw [place_eq, if_pos habsolute]
  exact Path.collapse_eq_self fun hup => (hclear.names _ hup).2 rfl

theorem up_of_root (h : p.anchor = .root) : p.up = p.parent := by
  simp [Path.up, h]

theorem join_ofPieces (h : (Path.ofPieces rest).isAbsolute = false) :
    p.join (.ofPieces rest) = { p with parts := p.parts ++ rest.filter counts } := by
  rw [Path.join, if_neg (by simp [h])]
  rfl

theorem Remains.isAbsolute (h : disk.Remains start names q) : q.isAbsolute = true := by
  simp [Path.isAbsolute, h.root]

/-- What is left of the way inside a link, and of the way after it. -/
theorem Remains.join {first whole : List Spelling} (h : disk.Remains start names q)
    (hrest : (Path.ofPieces rest).isAbsolute = false)
    (hup : (".." : Spelling) ∉ whole → (".." : Spelling) ∉ names ∧ (".." : Spelling) ∉ rest)
    (hback : ∀ m mid k dest, Leads disk.tree start names m mid → Leads disk.tree mid rest k dest →
      ∃ n, Leads disk.tree first whole n dest) :
    disk.Remains first whole (q.join (.ofPieces rest)) := by
  rw [join_ofPieces hrest]
  refine ⟨h.root, fun part hpart => ?_, fun hwhole hmem => ?_, fun n dest hl => ?_⟩
  · rcases List.mem_append.1 hpart with hpart | hpart
    · exact h.counts part hpart
    · exact (List.mem_filter.1 hpart).2
  · obtain ⟨hnames, hafter⟩ := hup hwhole
    rcases List.mem_append.1 hmem with hmem | hmem
    · exact h.up hnames hmem
    · exact hafter (List.mem_filter.1 hmem).1
  · obtain ⟨m, mid, k, hq, hnext⟩ := hl.split
    obtain ⟨m', hm'⟩ := h.leads m mid hq
    exact hback m' mid k dest hm' hnext.of_filter

theorem LinkLeads.leads {tree : Node} (h : LinkLeads tree (start ++ [name]) n dest) :
    Leads tree start [name] n dest := by
  obtain ⟨dir, last, heq, hl⟩ := h
  obtain ⟨rfl, hlast⟩ := List.append_inj' heq rfl
  obtain rfl := List.singleton_inj.1 hlast
  exact hl

/-- Of a link that is not entered, it is left to be entered. -/
theorem remains_child (hway : way.Sound disk) (hname : IsName name) :
    disk.Remains way.here.parts [name] (way.here.child name) := by
  refine ⟨hway.root, fun part hpart => ?_, fun hup hmem => ?_, fun n dest hl => ?_⟩
  · rcases List.mem_append.1 hpart with hpart | hpart
    · exact (hway.clear.names part hpart).1
    · exact List.mem_singleton.1 hpart ▸ hname.1
  · rcases List.mem_append.1 hmem with hmem | hmem
    · exact (hway.clear.names _ hmem).2 rfl
    · exact hup hmem
  · have hclear : Clear disk.tree ([] ++ way.here.parts) := hway.clear
    obtain ⟨m, mid, k, hhere, hnext⟩ := hl.split
    obtain ⟨-, rfl⟩ := hhere.unique hclear.leads
    exact ⟨k, hnext⟩

/-- How a way goes on with one name, and how it ends with the names after it. -/
inductive GoesOn (disk : Disk) (enter : Way → Spelling → Except Fault Course) (way : Way)
    (name : Spelling) (rest : List Spelling) (course : Course) : Prop where
  | stay (hname : counts name = false) (next : disk.along enter way rest = .ok course)
  | up (hname : name = "..")
      (next : disk.along enter { way with here := way.here.up } rest = .ok course)
  | child (hname : IsName name)
      (hlink : disk.tree.linkTo? (disk.place (way.here.child name)) = none)
      (next : disk.along enter { way with here := way.here.child name } rest = .ok course)
  | known (hname : IsName name) {p : Path}
      (hseen : way.seen.lookup (way.here.child name) = some (some p))
      (next : disk.along enter { way with here := p } rest = .ok course)
  /-- The link is being resolved. -/
  | opened (hname : IsName name)
      (hcourse : course = .looping ((way.here.child name).join (.ofPieces rest)))
  | link (hname : IsName name) {target : Spelling} {way' : Way}
      (hlink : disk.tree.linkTo? (disk.place (way.here.child name)) = some target)
      (inner : enter { way with seen := (way.here.child name, none) :: way.seen } target =
        .ok (.arrived way'))
      (next : disk.along enter
        { way' with seen := (way.here.child name, some way'.here) :: way'.seen } rest = .ok course)
  /-- A loop is met inside the link. -/
  | inside (hname : IsName name) {target : Spelling} {q : Path}
      (hlink : disk.tree.linkTo? (disk.place (way.here.child name)) = some target)
      (inner : enter { way with seen := (way.here.child name, none) :: way.seen } target =
        .ok (.looping q))
      (hcourse : course = .looping (q.join (.ofPieces rest)))
  | endless (hcourse : course = .endless)

theorem goesOn_of_along {enter : Way → Spelling → Except Fault Course}
    (h : disk.along enter way (name :: rest) = .ok course) :
    disk.GoesOn enter way name rest course := by
  rw [along] at h
  split at h
  next hcounts => exact .stay (by simpa using hcounts) h
  next hcounts =>
  split at h
  next hup => exact .up hup h
  next hup =>
  have hname : IsName name := ⟨by simpa using hcounts, hup⟩
  dsimp only at h
  rcases disk.linkAt?_cases (way.here.child name) with hat | hat
  · rw [hat] at h
    cases h
  rw [hat] at h
  cases hlink : disk.tree.linkTo? (disk.place (way.here.child name)) with
  | none =>
    rw [hlink] at h
    exact .child hname hlink h
  | some target =>
    rw [hlink] at h
    dsimp only at h
    split at h
    next p hseen => exact .known hname hseen h
    next => exact .opened hname (Except.ok.inj h).symm
    next =>
      split at h
      next way' hinner => exact .link hname hlink hinner h
      next q hinner => exact .inside hname hlink hinner (Except.ok.inj h).symm
      next harrived hlooping =>
        cases course with
        | arrived way' => exact absurd h (harrived way')
        | looping q => exact absurd h (hlooping q)
        | endless => exact .endless rfl

/-- What comes of going along a way is sound, provided that what comes of entering a link is. -/
theorem sound_along (hdisk : disk.Straight) {enter : Way → Spelling → Except Fault Course}
    (henter : ∀ {way : Way} {place : List Spelling} {target : Spelling} {course : Course},
      way.Sound disk → disk.tree.linkTo? place = some target → enter way target = .ok course →
        course.Sound disk (linkStart way.here.parts target) (pieces target))
    (hnames : Unbroken names) (hway : way.Sound disk)
    (h : disk.along enter way names = .ok course) : course.Sound disk way.here.parts names := by
  induction names generalizing way with
  | nil =>
    obtain rfl := Except.ok.inj h
    exact ⟨hway, 0, .arrived⟩
  | cons name rest ih =>
    have hrest := hnames.tail
    have hup : (".." : Spelling) ∉ name :: rest → (".." : Spelling) ∉ rest :=
      List.not_mem_of_not_mem_cons
    have hplace (hname : IsName name) :
        disk.place (way.here.child name) = way.here.parts ++ [name] := by
      rw [place_child hname.2, place_of_clear hway.root hway.clear]
    cases goesOn_of_along h with
    | stay hname next => exact (ih hrest hway next).back hup fun n dest hl => ⟨n, .stay hname hl⟩
    | up hname next =>
      subst hname
      rw [up_of_root hway.root] at next
      have hparent := hway.at (p := way.here.parent) hway.root
        (hway.clear.of_prefix (List.dropLast_prefix _))
      exact (ih hrest hparent next).back hup fun n dest hl => ⟨n, .up hl⟩
    | child hname hlink next =>
      rw [hplace hname] at hlink
      have hchild := hway.at (p := way.here.child name) hway.root (hway.clear.concat hname hlink)
      exact (ih hrest hchild next).back hup fun n dest hl => ⟨n, .enter hname hlink hl⟩
    | known hname hseen next =>
      obtain ⟨hroot, hclear, n, hknown⟩ := hway.known _ _ hseen
      rw [hplace hname] at hknown
      exact (ih hrest (hway.at hroot hclear) next).back hup fun k dest hl =>
        hknown.leads.append hl
    | opened hname hcourse =>
      subst hcourse
      have hsplit : (".." : Spelling) ∉ name :: rest →
          (".." : Spelling) ∉ [name] ∧ (".." : Spelling) ∉ rest := fun hwhole =>
        ⟨fun hmem => hwhole (List.mem_singleton.1 hmem ▸ List.mem_cons_self), hup hwhole⟩
      exact (remains_child hway hname).join (hnames name rest (List.suffix_refl _) hname.1) hsplit
        fun m mid k dest hl hl' => hl.append hl'
    | link hname hlink inner next =>
      have hentered := hway.seen (way.here.child name) none (by simp)
      obtain ⟨hway', n, hl⟩ := henter hentered hlink inner
      rw [hplace hname] at hlink
      have hleft := hway'.seen (way.here.child name) (some _) fun p hp => by
        obtain rfl := Option.some.inj hp
        exact ⟨hway'.root, hway'.clear, _, way.here.parts, name, hplace hname,
          .link hname hlink hl .arrived⟩
      exact (ih hrest hleft next).back hup fun k dest hnext => ⟨_, .link hname hlink hl hnext⟩
    | inside hname hlink inner hcourse =>
      subst hcourse
      have hentered := hway.seen (way.here.child name) none (by simp)
      have hq : disk.Remains (linkStart way.here.parts _) (pieces _) _ :=
        henter hentered hlink inner
      rw [hplace hname] at hlink
      exact hq.join (hnames name rest (List.suffix_refl _) hname.1)
        (fun hwhole => ⟨hdisk.up _ _ hlink, hup hwhole⟩)
        fun m mid k dest hl hl' => ⟨_, .link hname hlink hl hl'⟩
    | endless hcourse =>
      subst hcourse
      trivial

/-- Going along a way through links yields what is sound. -/
theorem sound_follow (hdisk : disk.Straight) (depth : Nat) (hnames : Unbroken names)
    (hway : way.Sound disk) (h : disk.follow depth way names = .ok course) :
    course.Sound disk way.here.parts names := by
  induction depth generalizing way names course with
  | zero =>
    refine sound_along hdisk (fun {_ _ _ course} _ _ hcourse => ?_) hnames hway h
    obtain rfl := Except.ok.inj hcourse
    trivial
  | succ depth ih =>
    refine sound_along hdisk (fun {way place target course} hway hlink hcourse => ?_) hnames hway h
    have hunbroken := hdisk.unbroken place target hlink
    unfold linkStart
    split
    next habsolute =>
      rw [if_pos habsolute] at hcourse
      exact ih hunbroken (hway.at (p := .root) rfl .nil) hcourse
    next habsolute =>
      rw [if_neg habsolute] at hcourse
      exact ih hunbroken hway hcourse

/-! ### Paths that meet a loop -/

/-- Whoever follows the path from the root reaches nothing: some link on the way leads back to
itself. -/
def MeetsLoop (disk : Disk) (p : Path) : Prop :=
  ∀ n dest, ¬ Leads disk.tree [] p.parts n dest

/-- Resolving the links of the path leaves it as it is, or yields a path on which the operating
system is led round in circles. -/
def Sticks (disk : Disk) (f : Path) : Prop :=
  ∀ g, disk.resolve f = .ok (some g) → g = f ∨ disk.stat g = .looping

theorem exists_leads (h : ¬ disk.MeetsLoop p) : ∃ n dest, Leads disk.tree [] p.parts n dest := by
  simpa only [MeetsLoop, not_forall, not_not] using h

theorem currentPath_join (habsolute : p.isAbsolute = true) : disk.currentPath.join p = p :=
  if_pos habsolute

theorem absolute_eq_self (habsolute : p.isAbsolute = true) (hup : (".." : Spelling) ∉ p.parts) :
    disk.absolute p = p := by
  simp [absolute, currentPath_join habsolute, Path.collapse_eq_self hup]

theorem absolute_subset (habsolute : p.isAbsolute = true) : (disk.absolute p).parts ⊆ p.parts := by
  rw [absolute, currentPath_join habsolute]
  exact collapse_subset p.parts

theorem up_not_mem_collapse (parts : List Spelling) : (".." : Spelling) ∉ collapse parts := by
  induction parts using List.reverseRecOn with
  | nil => exact List.not_mem_nil
  | append_singleton parts name ih =>
    by_cases hname : name = ".."
    · rw [hname, collapse_concat_up]
      exact fun hmem => ih (List.dropLast_subset _ hmem)
    · rw [collapse_concat hname, List.mem_append]
      exact not_or.2 ⟨ih, fun hmem => hname (List.mem_singleton.1 hmem).symm⟩

/-- Where a way without an end leads, and one that meets a loop. -/
theorem resolve_eq_ok {resolved : Option Path} (h : disk.resolve p = .ok resolved) :
    ∃ course, disk.follow disk.linkDepth { here := Disk.start p } p.parts = .ok course ∧
      resolved = match course with
        | .arrived way => some (disk.absolute way.here)
        | .looping q => some (disk.absolute q)
        | .endless => none := by
  unfold resolve at h
  split at h
  · cases h
  next way hway => exact ⟨_, hway, (Except.ok.inj h).symm⟩
  next q hq => exact ⟨_, hq, (Except.ok.inj h).symm⟩
  next hendless => exact ⟨_, hendless, (Except.ok.inj h).symm⟩

theorem settled_eq_ok {resolved : Option Path} (h : disk.settled p resolved = .ok f) :
    (f = disk.absolute p ∧ ∀ g, resolved = some g → disk.stat g = .looping) ∨
      (resolved = some f ∧ disk.stat f ≠ .looping) := by
  unfold settled at h
  split at h
  · exact .inl ⟨(Except.ok.inj h).symm, by simp⟩
  next g =>
    split at h
    · cases h
    split at h
    next hstat =>
      refine .inl ⟨(Except.ok.inj h).symm, fun g' hg => ?_⟩
      rw [← Option.some.inj hg, hstat]
    next hstat =>
      obtain rfl := Except.ok.inj h
      exact .inr ⟨rfl, hstat⟩

/-- The canonical path of a path from the root is its spelling, which is all there is to go by where
the operating system is led round in circles, or it is what its links resolve to. -/
theorem canonical_of_isAbsolute (habsolute : p.isAbsolute = true) (h : disk.canonical p = .ok f) :
    (f = disk.absolute p ∧ ∀ g, disk.resolve p = .ok (some g) → disk.stat g = .looping) ∨
      (disk.resolve p = .ok (some f) ∧ disk.stat f ≠ .looping) := by
  obtain ⟨q, resolved, hq, hresolved, hsettled⟩ := canonical_eq_ok h
  obtain rfl := Except.ok.inj ((expandHome_of_isAbsolute habsolute).symm.trans hq)
  rcases settled_eq_ok hsettled with ⟨hf, hlooping⟩ | ⟨rfl, hstat⟩
  · exact .inl ⟨hf, fun g hg => hlooping g (Except.ok.inj (hresolved.symm.trans hg))⟩
  · exact .inr ⟨hresolved, hstat⟩

theorem exists_absolute_of_resolve (h : disk.resolve p = .ok (some f)) :
    ∃ q, f = disk.absolute q := by
  obtain ⟨course, -, hcourse⟩ := resolve_eq_ok h
  cases course with
  | arrived way => exact ⟨_, Option.some.inj hcourse⟩
  | looping q => exact ⟨q, Option.some.inj hcourse⟩
  | endless => cases hcourse

theorem up_not_mem_of_canonical (habsolute : p.isAbsolute = true) (h : disk.canonical p = .ok f) :
    (".." : Spelling) ∉ f.parts := by
  rcases canonical_of_isAbsolute habsolute h with ⟨rfl, -⟩ | ⟨hresolved, -⟩
  · exact up_not_mem_collapse _
  · obtain ⟨q, rfl⟩ := exists_absolute_of_resolve hresolved
    exact up_not_mem_collapse _

theorem start_of_isAbsolute (habsolute : p.isAbsolute = true) : Disk.start p = .root := by
  simp [Disk.start, habsolute, Path.root]

/-- A path that meets no loop has a normal canonical path. -/
theorem canonical_of_leads (hdisk : disk.Spellable) (hp : p.Rooted)
    (hl : Leads disk.tree [] p.parts n dest) :
    disk.canonical p = .ok ⟨.root, dest⟩ ∧ disk.Normal ⟨.root, dest⟩ := by
  obtain ⟨resolved, hresolved, hnul⟩ := resolve_isOk hdisk (nulFree_iff.1 hp.nulFree)
  have hstart : disk.place (Disk.start p) = [] := by
    rw [start_of_isAbsolute hp.absolute, place_root]
  have hresolve : disk.resolve p = .ok (some ⟨.root, dest⟩) := by
    rcases resolve_of_leads (hstart ▸ hl) with hr | hr
    · exact absurd (hresolved.symm.trans hr) (by simp)
    · exact hr
  obtain rfl := Except.ok.inj (hresolved.symm.trans hresolve)
  have hclear : Clear disk.tree dest := Clear.nil.of_leads hl
  have hfree : Path.NulFree ⟨.root, dest⟩ := nulFree_iff.2 (hnul _ rfl)
  refine ⟨?_, ⟨rfl, hclear, hfree⟩⟩
  unfold canonical
  rw [expandHome_of_isAbsolute hp.absolute, ok_bind, hresolve, ok_bind]
  exact settled_of_clear hclear hfree

/-- A path without `..` is canonical if it is normal, or if it meets a loop and sticks there. -/
theorem canonical_eq_self_iff (hdisk : disk.Spellable) (hf : f.Rooted)
    (hup : (".." : Spelling) ∉ f.parts) :
    disk.canonical f = .ok f ↔ disk.Normal f ∨ (disk.MeetsLoop f ∧ disk.Sticks f) := by
  constructor
  · intro hself
    by_cases hloop : disk.MeetsLoop f
    · refine .inr ⟨hloop, fun g hg => ?_⟩
      rcases canonical_of_isAbsolute hf.absolute hself with ⟨-, hlooping⟩ | ⟨hresolved, -⟩
      · exact .inr (hlooping g hg)
      · exact .inl (Option.some.inj (Except.ok.inj (hg.symm.trans hresolved)))
    · obtain ⟨n, dest, hl⟩ := exists_leads hloop
      obtain ⟨hcanonical, hnormal⟩ := canonical_of_leads hdisk hf hl
      obtain rfl := Except.ok.inj (hself.symm.trans hcanonical)
      exact .inl hnormal
  · rintro (hnormal | ⟨-, hsticks⟩)
    · exact hnormal.canonical
    · obtain ⟨g, hg, -⟩ := canonical_of_rooted hdisk hf
      rcases canonical_of_isAbsolute hf.absolute hg with ⟨rfl, -⟩ | ⟨hresolved, hstat⟩
      · rwa [absolute_eq_self hf.absolute hup] at hg
      · obtain rfl := (hsticks g hresolved).resolve_right hstat
        exact hg

/-! ### What is left behind a link that leads back to itself -/

/-- What is left of a path whose links lead round in circles, from the link on that has led back to
itself. -/
def leftOf (disk : Disk) (p : Path) : Option Path :=
  match disk.follow disk.linkDepth { here := Disk.start p } p.parts with
  | .ok (.looping q) => some q
  | _ => none

/-- Names on the way from the root to a link that resolves to itself. -/
def Knot (disk : Disk) (key : List Spelling) : Prop :=
  ∃ q, disk.leftOf ⟨.root, key⟩ = some q ∧ disk.absolute q = ⟨.root, key⟩

theorem leftOf_eq_some : disk.leftOf p = some q ↔
    disk.follow disk.linkDepth { here := Disk.start p } p.parts = .ok (.looping q) := by
  unfold leftOf
  split
  next q' hfollow => simp [hfollow]
  next hnot =>
    refine iff_of_false (by simp) fun h => hnot q h

theorem resolve_of_leftOf (h : disk.leftOf p = some q) :
    disk.resolve p = .ok (some (disk.absolute q)) := by
  rw [resolve, leftOf_eq_some.1 h]

theorem join_of_counts (h : ∀ part ∈ rest, counts part = true) :
    p.join (.ofPieces rest) = { p with parts := p.parts ++ rest } := by
  have hrelative : (Path.ofPieces rest).isAbsolute = false := by
    simp [Path.ofPieces, Path.isAbsolute, anchorOf_of_counts h]
  rw [join_ofPieces hrelative, List.filter_eq_self.2 h]

theorem join_append (h : ∀ part ∈ names ++ rest, counts part = true) :
    p.join (.ofPieces (names ++ rest)) = (p.join (.ofPieces names)).join (.ofPieces rest) := by
  rw [join_of_counts h, join_of_counts fun part hpart => h part (List.mem_append_left _ hpart),
    join_of_counts fun part hpart => h part (List.mem_append_right _ hpart), List.append_assoc]

/-- A way that has met a loop leaves what comes after it as it is. -/
theorem along_append {enter : Way → Spelling → Except Fault Course}
    (hcounts : ∀ part ∈ names ++ rest, counts part = true)
    (h : disk.along enter way names = .ok (.looping q)) :
    disk.along enter way (names ++ rest) = .ok (.looping (q.join (.ofPieces rest))) := by
  induction names generalizing way with
  | nil => cases h
  | cons name others ih =>
    have hothers : ∀ part ∈ others ++ rest, counts part = true :=
      fun part hpart => hcounts part (List.mem_cons_of_mem _ hpart)
    rw [along] at h
    rw [List.cons_append, along]
    split at h
    next hname =>
      rw [if_pos hname]
      exact ih hothers h
    next hname =>
    rw [if_neg hname]
    split at h
    next hup =>
      rw [if_pos hup]
      exact ih hothers h
    next hup =>
    rw [if_neg hup]
    dsimp only at h ⊢
    split at h
    · cases h
    · exact ih hothers h
    split at h
    · exact ih hothers h
    · obtain rfl := Course.looping.inj (Except.ok.inj h)
      rw [join_append hothers]
    split at h
    · exact ih hothers h
    · obtain rfl := Course.looping.inj (Except.ok.inj h)
      rw [join_append hothers]
    next hlooping => exact absurd h (hlooping q)

theorem leftOf_append (hcounts : ∀ part ∈ names ++ rest, counts part = true)
    (h : disk.leftOf ⟨.root, names⟩ = some q) :
    disk.leftOf ⟨.root, names ++ rest⟩ = some { q with parts := q.parts ++ rest } := by
  rw [leftOf_eq_some] at h ⊢
  rw [← join_of_counts fun part hpart => hcounts part (List.mem_append_right _ hpart)]
  generalize disk.linkDepth = depth at h ⊢
  cases depth with
  | zero => exact along_append hcounts h
  | succ depth => exact along_append hcounts h

theorem collapse_append (hup : (".." : Spelling) ∉ rest) (parts : List Spelling) :
    collapse (parts ++ rest) = collapse parts ++ rest := by
  induction rest using List.reverseRecOn with
  | nil => simp
  | append_singleton rest name ih =>
    rw [List.mem_append, not_or, List.mem_singleton] at hup
    rw [← List.append_assoc, collapse_concat (Ne.symm hup.2), ih hup.1, List.append_assoc]

theorem absolute_append (hup : (".." : Spelling) ∉ rest) :
    disk.absolute { q with parts := q.parts ++ rest } =
      { disk.absolute q with parts := (disk.absolute q).parts ++ rest } := by
  by_cases habsolute : q.isAbsolute = true
  · have hlonger : ({ q with parts := q.parts ++ rest } : Path).isAbsolute = true := habsolute
    simp only [absolute, currentPath_join habsolute, currentPath_join hlonger, collapse_append hup]
  · have hlonger : ¬ ({ q with parts := q.parts ++ rest } : Path).isAbsolute = true := habsolute
    simp only [absolute, Path.join, if_neg habsolute, if_neg hlonger, ← List.append_assoc,
      collapse_append hup]

/-- Names behind a link that resolves to itself stay as they are. -/
theorem Knot.resolve {key : List Spelling} (h : disk.Knot key)
    (hnames : ∀ name ∈ key ++ rest, IsName name) :
    disk.resolve ⟨.root, key ++ rest⟩ = .ok (some ⟨.root, key ++ rest⟩) := by
  obtain ⟨q, hleft, habsolute⟩ := h
  have hup : (".." : Spelling) ∉ rest := fun hmem =>
    (hnames _ (List.mem_append_right _ hmem)).2 rfl
  rw [resolve_of_leftOf (leftOf_append (fun part hpart => (hnames part hpart).1) hleft),
    absolute_append hup, habsolute]

/-- What resolves to itself is canonical. -/
theorem canonical_of_resolve_self (hdisk : disk.Spellable) (hf : f.Rooted)
    (hup : (".." : Spelling) ∉ f.parts) (h : disk.resolve f = .ok (some f)) :
    disk.canonical f = .ok f := by
  obtain ⟨g, hg, -⟩ := canonical_of_rooted hdisk hf
  rcases canonical_of_isAbsolute hf.absolute hg with ⟨rfl, -⟩ | ⟨hresolved, -⟩
  · rwa [absolute_eq_self hf.absolute hup] at hg
  · obtain rfl := Option.some.inj (Except.ok.inj (hresolved.symm.trans h))
    exact hg

/-- Where only names are left behind a link that resolves to itself, the canonical path of a path
is canonical, unless it is its spelling and nobody has looked at what a `..` cancels there. -/
theorem canonical_of_leftOf {key : List Spelling} (hdisk : disk.Spellable) (hp : p.Rooted)
    (hf : disk.canonical p = .ok f) (hrooted : f.Rooted)
    (hleft : disk.leftOf p = some ⟨.root, key ++ rest⟩) (hkey : disk.Knot key)
    (hnames : ∀ name ∈ key ++ rest, IsName name)
    (hside : (".." : Spelling) ∉ p.parts ∨ f = ⟨.root, key ++ rest⟩) :
    disk.canonical f = .ok f := by
  have hup : (".." : Spelling) ∉ key ++ rest := fun hmem => (hnames _ hmem).2 rfl
  have hself (heq : f = ⟨.root, key ++ rest⟩) : disk.canonical f = .ok f := by
    subst heq
    exact canonical_of_resolve_self hdisk hrooted hup (hkey.resolve hnames)
  rcases hside with hp' | heq
  · rcases canonical_of_isAbsolute hp.absolute hf with ⟨rfl, -⟩ | ⟨hresolved, -⟩
    · rwa [absolute_eq_self hp.absolute hp'] at hf ⊢
    · have hresolve := resolve_of_leftOf hleft
      rw [absolute_eq_self rfl hup] at hresolve
      exact hself (Option.some.inj (Except.ok.inj (hresolved.symm.trans hresolve)))
  · exact hself heq

/-! ### Links that do not go up -/

theorem sound_start (habsolute : p.isAbsolute = true) :
    ({ here := Disk.start p } : Way).Sound disk := by
  rw [start_of_isAbsolute habsolute]
  exact ⟨rfl, .nil, by simp⟩

/-- What the links of a path resolve to: the place that it leads to, or what is left of it where it
has met a loop. -/
theorem sound_of_resolve (hdisk : disk.Straight) (habsolute : p.isAbsolute = true)
    (hparts : Unbroken p.parts) {g : Path} (h : disk.resolve p = .ok (some g)) :
    (Clear disk.tree g.parts ∧ ∃ n, Leads disk.tree [] p.parts n g.parts) ∨
      ∃ q, disk.Remains [] p.parts q ∧ g = disk.absolute q := by
  obtain ⟨course, hcourse, hg⟩ := resolve_eq_ok h
  have hsound := sound_follow hdisk _ hparts (sound_start habsolute) hcourse
  rw [start_of_isAbsolute habsolute] at hsound
  cases course with
  | arrived way =>
    obtain ⟨hway, n, hl⟩ := hsound
    have hplace : (disk.absolute way.here).parts = way.here.parts :=
      place_of_clear hway.root hway.clear
    rw [Option.some.inj hg, hplace]
    exact .inl ⟨hway.clear, n, hl⟩
  | looping q => exact .inr ⟨q, hsound, Option.some.inj hg⟩
  | endless => cases hg

theorem counts_of_canonical (hdisk : disk.Straight) (habsolute : p.isAbsolute = true)
    (hparts : ∀ part ∈ p.parts, counts part = true) (h : disk.canonical p = .ok f) :
    ∀ part ∈ f.parts, counts part = true := by
  rcases canonical_of_isAbsolute habsolute h with ⟨rfl, -⟩ | ⟨hresolved, -⟩
  · exact fun part hpart => hparts part (absolute_subset habsolute hpart)
  · rcases sound_of_resolve hdisk habsolute (.of_counts hparts) hresolved with
      ⟨hclear, -⟩ | ⟨q, hq, rfl⟩
    · exact fun part hpart => (hclear.names part hpart).1
    · exact fun part hpart => hq.counts part (absolute_subset hq.isAbsolute hpart)

/-- A path that meets a loop, on which nothing goes up, is canonical as it is: what is left of it
where it has met the loop leads the operating system round in circles as well. -/
theorem canonical_of_meetsLoop (hspellable : disk.Spellable) (hdisk : disk.Straight)
    (hp : p.Rooted) (hparts : ∀ part ∈ p.parts, counts part = true)
    (hup : (".." : Spelling) ∉ p.parts)
    (hloop : disk.MeetsLoop p) : disk.canonical p = .ok p := by
  obtain ⟨f, hf, -⟩ := canonical_of_rooted hspellable hp
  rcases canonical_of_isAbsolute hp.absolute hf with ⟨rfl, -⟩ | ⟨hresolved, hstat⟩
  · rwa [absolute_eq_self hp.absolute hup] at hf
  · exfalso
    rcases sound_of_resolve hdisk hp.absolute (.of_counts hparts) hresolved with
      ⟨-, n, hl⟩ | ⟨q, hq, rfl⟩
    · exact hloop n _ hl
    · rw [absolute_eq_self hq.isAbsolute (hq.up hup), stat, currentPath_join hq.isAbsolute] at hstat
      obtain ⟨n, dest, hl⟩ := leads_of_sight hdisk.up maxLinks (hq.up hup) hstat
      obtain ⟨m, hm⟩ := hq.leads n dest hl
      exact hloop m dest hm

/-- When the canonical path of a path from the root is canonical.

* It is just if it is normal, or meets a loop and sticks there.
* It is if only names are left of the path behind a link that resolves to itself, whatever other
  links there are.
* Where no link goes up, it is just if it is normal or meets a loop. So it is for every path without
  `..`; one that meets a loop is canonical itself. -/
theorem canonical_canonical_iff (hdisk : disk.Spellable) (hp : p.Rooted) :
    ∃ f, disk.canonical p = .ok f ∧
      (disk.canonical f = .ok f ↔ disk.Normal f ∨ (disk.MeetsLoop f ∧ disk.Sticks f)) ∧
      (∀ key rest, disk.leftOf p = some ⟨.root, key ++ rest⟩ → disk.Knot key →
        (∀ name ∈ key ++ rest, IsName name) →
        ((".." : Spelling) ∉ p.parts ∨ f = ⟨.root, key ++ rest⟩) → disk.canonical f = .ok f) ∧
      (disk.Straight → (∀ part ∈ p.parts, counts part = true) →
        (disk.canonical f = .ok f ↔ disk.Normal f ∨ disk.MeetsLoop f) ∧
        ((".." : Spelling) ∉ p.parts → disk.canonical f = .ok f ∧ (disk.MeetsLoop p → f = p))) := by
  obtain ⟨f, hf, hrooted⟩ := canonical_of_rooted hdisk hp
  have hup := up_not_mem_of_canonical hp.absolute hf
  have hself := canonical_eq_self_iff hdisk hrooted hup
  refine ⟨f, hf, hself, fun key rest => canonical_of_leftOf hdisk hp hf hrooted,
    fun hstraight hparts => ?_⟩
  have hcounts := counts_of_canonical hstraight hp.absolute hparts hf
  have hloops (hloop : disk.MeetsLoop f) : disk.canonical f = .ok f :=
    canonical_of_meetsLoop hdisk hstraight hrooted hcounts hup hloop
  refine ⟨⟨fun h => (hself.1 h).imp_right And.left, ?_⟩, fun hnames => ?_⟩
  · rintro (hnormal | hloop)
    · exact hnormal.canonical
    · exact hloops hloop
  · by_cases hloop : disk.MeetsLoop p
    · have hp' := canonical_of_meetsLoop hdisk hstraight hp hparts hnames hloop
      obtain rfl := Except.ok.inj (hf.symm.trans hp')
      exact ⟨hf, fun _ => rfl⟩
    · obtain ⟨n, dest, hl⟩ := exists_leads hloop
      obtain ⟨hcanonical, hnormal⟩ := canonical_of_leads hdisk hp hl
      obtain rfl := Except.ok.inj (hf.symm.trans hcanonical)
      exact ⟨hnormal.canonical, fun h => absurd h hloop⟩

end Disk

namespace Sample

open Node

/-- A disk with a link to itself beside a link to a directory. -/
def looped : Disk where
  tree := .directory
    [("real", .directory []), ("loop", .link "loop"), ("link", .link "real")]
  current := []
  homes := []

def inLoop : Path := ⟨.root, ["loop", "inner"]⟩

def pastLoop : Path := ⟨.root, ["loop", "..", "link"]⟩

theorem linkTo?_looped {q : List Spelling} {target : Spelling}
    (h : looped.tree.linkTo? q = some target) : target = "loop" ∨ target = "real" := by
  cases q with
  | nil => cases h
  | cons name rest =>
    rw [looped, linkTo?_directory] at h
    obtain ⟨node, hnode, hlink⟩ := Option.bind_eq_some_iff.1 h
    obtain ⟨before, after, hsplit, -⟩ := List.lookup_eq_some_iff.1 hnode
    have hmem : (name, node) ∈ before ++ (name, node) :: after := by simp
    rw [← hsplit] at hmem
    simp only [List.mem_cons, Prod.mk.injEq, List.not_mem_nil, or_false] at hmem
    rcases hmem with ⟨-, rfl⟩ | ⟨-, rfl⟩ | ⟨-, rfl⟩
    · cases rest <;> simp [linkTo?, find?] at hlink
    · cases rest <;> simp [linkTo?, find?] at hlink
      exact .inl hlink.symm
    · cases rest <;> simp [linkTo?, find?] at hlink
      exact .inr hlink.symm

theorem pieces_looped {q : List Spelling} {target : Spelling}
    (h : looped.tree.linkTo? q = some target) : pieces target = [target] := by
  have hloop : pieces "loop" = [("loop" : Spelling)] := by decide +kernel
  have hreal : pieces "real" = [("real" : Spelling)] := by decide +kernel
  rcases linkTo?_looped h with rfl | rfl
  · exact hloop
  · exact hreal

theorem isName_looped {q : List Spelling} {target : Spelling}
    (h : looped.tree.linkTo? q = some target) : IsName target := by
  rcases linkTo?_looped h with rfl | rfl
  · exact ⟨rfl, by decide⟩
  · exact ⟨rfl, by decide⟩

theorem spellable_looped : looped.Spellable where
  current := Path.clean_nil
  targets place target h := by
    rcases linkTo?_looped h with rfl | rfl
    · decide
    · decide
  homes user home h := by simp [looped] at h

theorem straight_looped : looped.Straight where
  up place target h := by
    rw [pieces_looped h, List.mem_singleton]
    exact fun hup => (isName_looped h).2 hup.symm
  unbroken place target h := by
    rw [pieces_looped h]
    exact .of_counts fun name hname => List.mem_singleton.1 hname ▸ (isName_looped h).1

/-- Nothing is reached through the link to itself. -/
theorem leads_nowhere {rest dest : List Spelling} {n : Nat} :
    ¬ Leads looped.tree [] ("loop" :: rest) n dest := by
  intro h
  generalize hnames : ("loop" : Spelling) :: rest = names at h
  generalize hplace : [] = place at h
  have hpieces : pieces "loop" = [("loop" : Spelling)] := by decide +kernel
  have hstart : linkStart [] "loop" = [] := by decide +kernel
  induction h generalizing rest with
  | arrived => cases hnames
  | stay hname _ _ =>
    obtain ⟨rfl, -⟩ := List.cons.inj hnames
    exact absurd hname (by decide)
  | up _ _ => exact absurd (List.cons.inj hnames).1 (by decide)
  | enter _ hlink _ _ =>
    obtain ⟨rfl, -⟩ := List.cons.inj hnames
    subst hplace
    cases hlink
  | link _ hlink _ _ ih _ =>
    obtain ⟨rfl, -⟩ := List.cons.inj hnames
    subst hplace
    obtain rfl : ("loop" : Spelling) = _ := Option.some.inj hlink
    exact ih hpieces.symm hstart.symm

theorem canonical_pastLoop : looped.canonical pastLoop = .ok ⟨.root, ["link"]⟩ := by
  unfold pastLoop
  cbv

theorem canonical_link : looped.canonical ⟨.root, ["link"]⟩ = .ok ⟨.root, ["real"]⟩ := by
  cbv

theorem rooted_pastLoop : pastLoop.Rooted :=
  ⟨rfl, by simp [Path.NulFree, pastLoop]⟩

theorem rooted_inLoop : inLoop.Rooted :=
  ⟨rfl, by simp [Path.NulFree, inLoop]⟩

theorem leftOf_inLoop : looped.leftOf inLoop = some inLoop := by
  unfold inLoop
  cbv

theorem knot_looped : looped.Knot ["loop"] :=
  ⟨⟨.root, ["loop"]⟩, by cbv, by cbv⟩

/-- A path into the loop is canonical as it is, by what is left of it behind the loop as well as by
what links there are. -/
theorem canonical_canonical_inLoop : looped.Spellable ∧ inLoop.Rooted ∧ looped.Straight ∧
    looped.MeetsLoop inLoop ∧ looped.leftOf inLoop = some inLoop ∧
    looped.Knot ["loop"] ∧ (∃ f, looped.canonical inLoop = .ok f ∧ looped.canonical f = .ok f) ∧
    looped.canonical inLoop = .ok inLoop := by
  have hloop : looped.MeetsLoop inLoop := fun _ _ => leads_nowhere
  obtain ⟨f, hf, -, hknot, hiff⟩ := Disk.canonical_canonical_iff spellable_looped rooted_inLoop
  have hnames : ∀ name ∈ inLoop.parts, IsName name := by
    intro name hname
    rcases List.mem_pair.1 hname with rfl | rfl
    · exact ⟨rfl, by decide⟩
    · exact ⟨rfl, by decide⟩
  have hself := hknot ["loop"] ["inner"] leftOf_inLoop knot_looped hnames (.inl (by decide))
  have hparts : ∀ part ∈ inLoop.parts, Path.counts part = true := by decide
  obtain ⟨-, heq⟩ := (hiff straight_looped hparts).2 (by decide)
  obtain rfl := heq hloop
  exact ⟨spellable_looped, rooted_inLoop, straight_looped, hloop, leftOf_inLoop, knot_looped,
    ⟨_, hf, hself⟩, hf⟩

/-- A `..` behind the loop cancels the looping link and so brings up another link. -/
theorem not_canonical_canonical_pastLoop : looped.Spellable ∧ pastLoop.Rooted ∧
    looped.MeetsLoop pastLoop ∧
    ∃ f, looped.canonical pastLoop = .ok f ∧ looped.canonical f ≠ .ok f := by
  refine ⟨spellable_looped, rooted_pastLoop, fun _ _ => leads_nowhere, _, canonical_pastLoop, ?_⟩
  rw [canonical_link]
  decide

end Sample

end LintBridge
