import LintBridge.Proofs.NormalForm
import LintBridge.Store

/-!
# LintBridge.Proofs.Slices

A store after any number of changes to it. Which slice a file has follows from the changes alone
(`Store.Leaves`): the last one about the file has set it, under whatever spelling. So does the order
of the files (`Store.EntersAt`): a file stands where it came in when it was last absent.

Both are told for one more change at the end (`Store.leaves_concat`, `Store.entersAt_concat`), which
is how `Store.Reflects` is carried along.

Main result: `Store.reflects_after`, for a disk without loops. There the files that are listed are
spelled so that each finds its own slice again.
-/

namespace LintBridge.Store

/-- A change to a store. -/
inductive Change where
  | replace (p : Path) (records : List Record)
  | discard (p : Path)
  | clear

namespace Change

/-- The path that a change spells. -/
def path? : Change → Option Path
  | replace p _ => some p
  | discard p => some p
  | clear => none

/-- The store after a change. -/
def made (disk : Disk) (s : Store) : Change → Except Fault Store
  | replace p records => s.replace disk p records
  | discard p => s.discard disk p
  | clear => .ok {}

/-- The change sets the slice of a file. -/
def Sets (disk : Disk) (f : Path) (records : List Record) : Change → Prop
  | replace p new => disk.canonical p = .ok f ∧ new = records
  | discard _ => False
  | clear => False

/-- The change takes a file out of the store. -/
def Drops (disk : Disk) (f : Path) : Change → Prop
  | replace _ _ => False
  | discard p => disk.canonical p = .ok f
  | clear => True

/-- The path that a change spells can be resolved. -/
def Resolves (disk : Disk) (change : Change) : Prop :=
  ∀ p, change.path? = some p → ∃ f, disk.canonical p = .ok f

end Change

/-- The store after some changes. There is nothing in it at first. -/
def after (disk : Disk) (changes : List Change) : Except Fault Store :=
  changes.foldlM (Change.made disk) {}

/-- After the changes a file has a slice: one of them has set it, and no later one has set another
or has taken the file out. -/
def Leaves (disk : Disk) (changes : List Change) (f : Path) (records : List Record) : Prop :=
  ∃ before change later, changes = before ++ change :: later ∧ change.Sets disk f records ∧
    ∀ c ∈ later, ¬ c.Drops disk f ∧ ∀ new, ¬ c.Sets disk f new

/-- After the changes a file has some slice, be it an empty one. -/
def Lists (disk : Disk) (changes : List Change) (f : Path) : Prop :=
  ∃ records, Leaves disk changes f records

/-- A file that was absent comes in with the change number `n`, and no later change takes it out. -/
def EntersAt (disk : Disk) (changes : List Change) (f : Path) (n : Nat) : Prop :=
  ∃ before change later, changes = before ++ change :: later ∧ before.length = n ∧
    (∃ records, change.Sets disk f records) ∧ ¬ Lists disk before f ∧
      ∀ c ∈ later, ¬ c.Drops disk f

variable {disk : Disk} {changes : List Change} {change : Change} {f g : Path}
  {records : List Record} {n : Nat} {s t : Store}

/-! ### One change more -/

theorem after_concat (disk : Disk) (changes : List Change) (change : Change) :
    after disk (changes ++ [change]) = after disk changes >>= fun s => change.made disk s := by
  unfold after
  simp only [List.foldlM_append, List.foldlM_cons, List.foldlM_nil, bind_pure]

/-- A place among the changes and one more at the end is the end itself or a place before it. -/
theorem concat_eq_append_cons_iff {before later : List Change} {c : Change} :
    changes ++ [change] = before ++ c :: later ↔
      (before = changes ∧ c = change ∧ later = []) ∨
        ∃ init, changes = before ++ c :: init ∧ later = init ++ [change] := by
  constructor
  · intro h
    rcases List.eq_nil_or_concat' later with rfl | ⟨init, last, rfl⟩
    · obtain ⟨hchanges, hc⟩ := List.append_inj' h rfl
      exact .inl ⟨hchanges.symm, (List.singleton_inj.1 hc).symm, rfl⟩
    · rw [← List.cons_append, ← List.append_assoc] at h
      obtain ⟨hchanges, hlast⟩ := List.append_inj' h rfl
      exact .inr ⟨init, hchanges, by rw [List.singleton_inj.1 hlast]⟩
  · intro h
    rcases h with ⟨rfl, rfl, rfl⟩ | ⟨init, rfl, rfl⟩
    · rfl
    · simp

/-- Either the last change sets the slice, or it leaves the file alone. -/
theorem leaves_concat : Leaves disk (changes ++ [change]) f records ↔
    change.Sets disk f records ∨
      (Leaves disk changes f records ∧ ¬ change.Drops disk f ∧
        ∀ new, ¬ change.Sets disk f new) := by
  constructor
  · intro h
    obtain ⟨before, c, later, heq, hsets, hlater⟩ := h
    rcases concat_eq_append_cons_iff.1 heq with ⟨-, rfl, rfl⟩ | ⟨init, hinit, rfl⟩
    · exact .inl hsets
    · obtain ⟨hlater, hchange⟩ := List.forall_mem_append.1 hlater
      exact .inr ⟨⟨before, c, init, hinit, hsets, hlater⟩, hchange change (by simp)⟩
  · intro h
    rcases h with hsets | ⟨⟨before, c, init, rfl, hsets, hlater⟩, hchange⟩
    · exact ⟨changes, change, [], rfl, hsets, by simp⟩
    · refine ⟨before, c, init ++ [change], by simp, hsets, List.forall_mem_append.2 ⟨hlater, ?_⟩⟩
      exact List.forall_mem_singleton.2 hchange

/-- Either the last change leaves the file in, or the file comes in with it. -/
theorem entersAt_concat : EntersAt disk (changes ++ [change]) f n ↔
    (EntersAt disk changes f n ∧ ¬ change.Drops disk f) ∨
      (n = changes.length ∧ (∃ records, change.Sets disk f records) ∧ ¬ Lists disk changes f) := by
  constructor
  · intro h
    obtain ⟨before, c, later, heq, hlength, hsets, habsent, hlater⟩ := h
    rcases concat_eq_append_cons_iff.1 heq with ⟨rfl, rfl, rfl⟩ | ⟨init, hinit, rfl⟩
    · exact .inr ⟨hlength.symm, hsets, habsent⟩
    · obtain ⟨hlater, hchange⟩ := List.forall_mem_append.1 hlater
      exact .inl ⟨⟨before, c, init, hinit, hlength, hsets, habsent, hlater⟩,
        hchange change (by simp)⟩
  · intro h
    rcases h with ⟨⟨before, c, init, rfl, hlength, hsets, habsent, hlater⟩, hchange⟩ |
      ⟨rfl, hsets, habsent⟩
    · refine ⟨before, c, init ++ [change], by simp, hlength, hsets, habsent,
        List.forall_mem_append.2 ⟨hlater, ?_⟩⟩
      exact List.forall_mem_singleton.2 hchange
    · exact ⟨changes, change, [], rfl, rfl, hsets, habsent, by simp⟩

theorem Change.Sets.not_drops (h : change.Sets disk f records) : ¬ change.Drops disk f := by
  cases change with
  | replace p new => exact fun hdrops => hdrops
  | discard p => exact absurd h id
  | clear => exact absurd h id

/-- A file that has a slice after one more change has had one before, or is given one. -/
theorem lists_concat : Lists disk (changes ++ [change]) f ↔
    (∃ records, change.Sets disk f records) ∨ (Lists disk changes f ∧ ¬ change.Drops disk f) := by
  unfold Lists
  simp only [leaves_concat]
  constructor
  · intro h
    obtain ⟨records, hsets | ⟨hleaves, hdrops, -⟩⟩ := h
    · exact .inl ⟨records, hsets⟩
    · exact .inr ⟨⟨records, hleaves⟩, hdrops⟩
  · intro h
    rcases h with ⟨records, hsets⟩ | ⟨⟨records, hleaves⟩, hdrops⟩
    · exact ⟨records, .inl hsets⟩
    · by_cases hsets : ∃ new, change.Sets disk f new
      · obtain ⟨new, hnew⟩ := hsets
        exact ⟨new, .inl hnew⟩
      · exact ⟨records, .inr ⟨hleaves, hdrops, fun new hnew => hsets ⟨new, hnew⟩⟩⟩

theorem not_lists_nil : ¬ Lists disk [] f := by
  intro h
  obtain ⟨records, before, change, later, heq, -⟩ := h
  simp at heq

/-- A file comes in when it is first set, so it is in the store just if it has come in. -/
theorem lists_iff_entersAt : Lists disk changes f ↔ ∃ n, EntersAt disk changes f n := by
  induction changes using List.reverseRecOn with
  | nil =>
    refine iff_of_false not_lists_nil ?_
    intro h
    obtain ⟨n, before, change, later, heq, -⟩ := h
    simp at heq
  | append_singleton changes change ih =>
    simp only [lists_concat, entersAt_concat]
    constructor
    · intro h
      rcases h with ⟨records, hsets⟩ | ⟨hlists, hdrops⟩
      · -- a file that is set again stays where it is
        by_cases hlists : Lists disk changes f
        · obtain ⟨n, hn⟩ := ih.1 hlists
          exact ⟨n, .inl ⟨hn, hsets.not_drops⟩⟩
        · exact ⟨changes.length, .inr ⟨rfl, ⟨records, hsets⟩, hlists⟩⟩
      · obtain ⟨n, hn⟩ := ih.1 hlists
        exact ⟨n, .inl ⟨hn, hdrops⟩⟩
    · intro h
      obtain ⟨n, ⟨hn, hdrops⟩ | ⟨-, hsets, -⟩⟩ := h
      · exact .inr ⟨ih.2 ⟨n, hn⟩, hdrops⟩
      · exact .inl hsets

theorem EntersAt.lt_length (h : EntersAt disk changes f n) : n < changes.length := by
  obtain ⟨before, change, later, rfl, rfl, -⟩ := h
  simp

/-! ### What a store tells about the changes -/

/-- The files of the store are those that have come in, in the order in which they have, and each
has the slice that the changes leave it. -/
structure Reflects (disk : Disk) (changes : List Change) (s : Store) : Prop where
  nodup : s.files.Nodup
  slices : ∀ f records, s.slices.get? f = some records ↔ Leaves disk changes f records
  ordered : s.files.Pairwise fun f g =>
    ∀ m n, EntersAt disk changes f m → EntersAt disk changes g n → m < n

theorem Reflects.mem_files (h : Reflects disk changes s) : f ∈ s.files ↔ Lists disk changes f := by
  show f ∈ FileMap.files s.slices ↔ _
  rw [FileMap.mem_files_iff, Option.isSome_iff_exists]
  exact exists_congr fun records => h.slices f records

/-- Where one more change keeps the file in, it keeps it in its place. -/
theorem entersAt_of_concat (hlists : Lists disk changes f)
    (h : EntersAt disk (changes ++ [change]) f n) : EntersAt disk changes f n := by
  rcases entersAt_concat.1 h with ⟨hn, -⟩ | ⟨-, -, habsent⟩
  · exact hn
  · exact absurd hlists habsent

/-- The files that were in before keep their order. -/
theorem Reflects.ordered_sublist (h : Reflects disk changes s) {files : List Path}
    (hfiles : files.Sublist s.files) (change : Change) : files.Pairwise fun f g =>
      ∀ m n, EntersAt disk (changes ++ [change]) f m → EntersAt disk (changes ++ [change]) g n →
        m < n := by
  refine (h.ordered.sublist hfiles).imp_of_mem fun {f g} hf hg hlt m n hm hn => ?_
  have hlistsf := h.mem_files.1 (hfiles.subset hf)
  have hlistsg := h.mem_files.1 (hfiles.subset hg)
  exact hlt m n (entersAt_of_concat hlistsf hm) (entersAt_of_concat hlistsg hn)

theorem Reflects.replace (h : Reflects disk changes s) {p : Path}
    (hp : disk.canonical p = .ok g) :
    Reflects disk (changes ++ [.replace p records]) ⟨s.slices.put g records⟩ := by
  have hsets (f : Path) (new : List Record) :
      (Change.replace p records).Sets disk f new ↔ g = f ∧ new = records := by
    show disk.canonical p = .ok f ∧ records = new ↔ _
    rw [hp, Except.ok.injEq, @eq_comm _ records]
  refine ⟨FileMap.nodup_put h.nodup g records, fun f new => ?_, ?_⟩
  · rw [leaves_concat, hsets]
    by_cases hf : g = f
    · subst hf
      rw [FileMap.get?_put_self]
      simp [hsets, eq_comm]
    · rw [FileMap.get?_put_of_ne _ _ (Ne.symm hf), h.slices]
      have hkept : ¬ (Change.replace p records).Drops disk f := id
      simp [hsets, hf, hkept]
  · show (FileMap.files (s.slices.put g records)).Pairwise _
    rw [FileMap.files_put]
    split
    next hmem => exact h.ordered_sublist (List.Sublist.refl _) _
    next hmem =>
      -- the new file comes in with the last change, and all others came in before
      refine List.pairwise_append.2 ⟨h.ordered_sublist (List.Sublist.refl _) _,
        List.pairwise_singleton _ _, fun f hf f' hf' m n hm hn => ?_⟩
      obtain rfl := List.mem_singleton.1 hf'
      have hnew : ¬ Lists disk changes f' := fun hlists => hmem (h.mem_files.2 hlists)
      have hm' := entersAt_of_concat (h.mem_files.1 hf) hm
      rcases entersAt_concat.1 hn with ⟨hn', -⟩ | ⟨rfl, -, -⟩
      · exact absurd (lists_iff_entersAt.2 ⟨n, hn'⟩) hnew
      · exact hm'.lt_length

theorem Reflects.discard (h : Reflects disk changes s) {p : Path}
    (hp : disk.canonical p = .ok g) :
    Reflects disk (changes ++ [.discard p]) ⟨s.slices.erase g⟩ := by
  have hfiles : files ⟨s.slices.erase g⟩ = s.files.filter (· ≠ g) := FileMap.files_erase _ _
  refine ⟨?_, fun f new => ?_, ?_⟩
  · rw [hfiles]
    exact h.nodup.filter _
  · have hdrops : (Change.discard p).Drops disk f ↔ f = g := by
      show disk.canonical p = .ok f ↔ _
      rw [hp, Except.ok.injEq, eq_comm]
    have hsets : ∀ new, ¬ (Change.discard p).Sets disk f new := fun _ => id
    rw [leaves_concat, FileMap.get?_erase]
    by_cases hf : f = g
    · subst hf
      simp [hdrops, hsets]
    · simp [hdrops, hsets, hf, h.slices]
  · rw [hfiles]
    exact h.ordered_sublist List.filter_sublist _

theorem reflects_clear : Reflects disk (changes ++ [.clear]) {} := by
  refine ⟨List.nodup_nil, fun f new => ?_, List.Pairwise.nil⟩
  have hdrops : Change.clear.Drops disk f := trivial
  have hsets : ∀ new, ¬ Change.clear.Sets disk f new := fun _ => id
  simp [leaves_concat, hdrops, hsets, FileMap.get?]

/-- A change whose path can be resolved is made, and the store reflects it. -/
theorem Reflects.made (h : Reflects disk changes s) (hchange : change.Resolves disk) :
    ∃ t, change.made disk s = .ok t ∧ Reflects disk (changes ++ [change]) t := by
  cases change with
  | replace p records =>
    obtain ⟨g, hg⟩ := hchange p rfl
    refine ⟨_, ?_, h.replace hg⟩
    show s.replace disk p records = _
    simp [Store.replace, hg]
  | discard p =>
    obtain ⟨g, hg⟩ := hchange p rfl
    refine ⟨_, ?_, h.discard hg⟩
    show s.discard disk p = _
    simp [Store.discard, hg]
  | clear => exact ⟨{}, rfl, reflects_clear⟩

theorem exists_reflects (hchanges : ∀ c ∈ changes, c.Resolves disk) :
    ∃ s, after disk changes = .ok s ∧ Reflects disk changes s := by
  induction changes using List.reverseRecOn with
  | nil =>
    refine ⟨{}, rfl, List.nodup_nil, fun f records => ?_, List.Pairwise.nil⟩
    have hnone : ¬ Leaves disk [] f records := fun h => not_lists_nil ⟨records, h⟩
    simp [FileMap.get?, hnone]
  | append_singleton changes change ih =>
    obtain ⟨s, hs, hreflects⟩ := ih fun c hc => hchanges c (List.mem_append_left _ hc)
    obtain ⟨t, ht, hnext⟩ := hreflects.made (hchanges change (by simp))
    refine ⟨t, ?_, hnext⟩
    rw [after_concat, hs]
    exact ht

/-! ### Looking up -/

theorem Reflects.lookup (h : Reflects disk changes s) {q : Path} (hq : disk.canonical q = .ok f) :
    (∀ records, Leaves disk changes f records → s.lookup disk q = .ok records) ∧
      (¬ Lists disk changes f → s.lookup disk q = .ok []) := by
  have hlookup : s.lookup disk q = .ok ((s.slices.get? f).getD []) := by
    simp [Store.lookup, hq]
  rw [hlookup]
  refine ⟨fun records hleaves => ?_, fun hnone => ?_⟩
  · rw [(h.slices f records).2 hleaves]
    rfl
  · cases hget : s.slices.get? f with
    | none => rfl
    | some records => exact absurd ⟨records, (h.slices f records).1 hget⟩ hnone

theorem Reflects.contains (h : Reflects disk changes s) {q : Path}
    (hq : disk.canonical q = .ok f) :
    ∃ isIn, s.contains disk q = .ok isIn ∧ (isIn = true ↔ Lists disk changes f) := by
  refine ⟨(s.slices.get? f).isSome, by simp [Store.contains, hq], ?_⟩
  rw [← FileMap.mem_files_iff]
  exact h.mem_files

/-- A store after any changes, on a disk without loops, as seen from outside.

* A path finds the slice that was last set for its file, under whatever spelling, unless the file
  was taken out later; without a slice it finds nothing. A file is in the store just if it has a
  slice, be it an empty one.
* Each of these files is listed once, in the order in which they came in when they were last absent.
* Every path that is listed finds the slice of its own file. -/
theorem reflects_after (hdisk : disk.Grounded) (hfree : disk.tree.LoopFree)
    (hchanges : ∀ c ∈ changes, c.Resolves disk) :
    ∃ s, after disk changes = .ok s ∧
      (∀ q f, disk.canonical q = .ok f →
        (∀ records, Leaves disk changes f records → s.lookup disk q = .ok records) ∧
        (¬ Lists disk changes f → s.lookup disk q = .ok []) ∧
        ∃ isIn, s.contains disk q = .ok isIn ∧ (isIn = true ↔ Lists disk changes f)) ∧
      s.files.Nodup ∧
      (∀ f, f ∈ s.files ↔ Lists disk changes f) ∧
      (∀ f ∈ s.files, ∃ n, EntersAt disk changes f n) ∧
      (s.files.Pairwise fun f g =>
        ∀ m n, EntersAt disk changes f m → EntersAt disk changes g n → m < n) ∧
      ∀ f ∈ s.files, ∃ records, Leaves disk changes f records ∧ s.lookup disk f = .ok records := by
  obtain ⟨s, hs, h⟩ := exists_reflects hchanges
  refine ⟨s, hs, fun q f hq => ?_, h.nodup, fun f => h.mem_files, fun f hf => ?_, h.ordered,
    fun f hf => ?_⟩
  · exact ⟨(h.lookup hq).1, (h.lookup hq).2, h.contains hq⟩
  · exact lists_iff_entersAt.1 (h.mem_files.1 hf)
  · -- a file in the store is the canonical path of one that a change has spelled
    obtain ⟨records, hleaves⟩ := h.mem_files.1 hf
    have hcanonical : disk.canonical f = .ok f := by
      obtain ⟨before, change, later, -, hsets, -⟩ := hleaves
      cases change with
      | replace p new => exact Disk.canonical_canonical hdisk hfree hsets.1
      | discard p => exact absurd hsets id
      | clear => exact absurd hsets id
    exact ⟨records, hleaves, (h.lookup hcanonical).1 records hleaves⟩

end LintBridge.Store

namespace LintBridge.Sample

open Store

/-- The path to `tilde` that leads through a link. -/
def throughLink : Path := ⟨.root, ["ws", "~x"]⟩

/-- A file that does not exist. -/
def absent : Path := ⟨.root, ["b"]⟩

/-- One file is set, taken out and set again, under two spellings, with another one in between. -/
def changes : List Change :=
  [.replace throughLink touching, .replace absent [], .discard tilde, .replace throughLink [],
    .replace absent touching]

theorem canonical_throughLink : linked.canonical throughLink = .ok tilde := by
  unfold tilde throughLink
  cbv

theorem canonical_tilde_self : linked.canonical tilde = .ok tilde := by
  unfold tilde
  cbv

theorem canonical_absent : linked.canonical absent = .ok absent := by
  unfold absent
  cbv

theorem resolves_changes : ∀ c ∈ changes, c.Resolves linked := by
  have hpaths : ∀ p ∈ [throughLink, absent, tilde], ∃ f, linked.canonical p = .ok f := by
    simp [canonical_throughLink, canonical_absent, canonical_tilde_self]
  intro c hc p hp
  refine hpaths p ?_
  simp only [changes, List.mem_cons, List.not_mem_nil, or_false] at hc
  rcases hc with rfl | rfl | rfl | rfl | rfl <;> simp_all [Change.path?]

/-- The file that was taken out stands last, and its slice is empty but present. -/
theorem reflects_after_changes : linked.Grounded ∧ linked.tree.LoopFree ∧
    (∀ c ∈ changes, c.Resolves linked) ∧
      ∃ s, after linked changes = .ok s ∧ s.files = [absent, tilde] ∧
        s.lookup linked throughLink = .ok [] ∧ s.contains linked throughLink = .ok true ∧
        s.lookup linked absent = .ok touching := by
  have hgrounded : linked.Grounded := .nil
  refine ⟨hgrounded, loopFree_linked, resolves_changes, ?_⟩
  obtain ⟨s, hs, hlookup, -⟩ := reflects_after hgrounded loopFree_linked resolves_changes
  have hafter : after linked changes = .ok ⟨[(absent, touching), (tilde, [])]⟩ := by
    have hne : absent ≠ tilde := by decide
    simp [after, changes, Change.made, Store.replace, Store.discard, canonical_throughLink,
      canonical_tilde_self, canonical_absent, FileMap.put, FileMap.erase, hne, hne.symm]
  have hempty : Leaves linked changes tilde [] := by
    refine ⟨changes.take 3, .replace throughLink [], [.replace absent touching], rfl,
      ⟨canonical_throughLink, rfl⟩, fun c hc => ?_⟩
    obtain rfl := List.mem_singleton.1 hc
    refine ⟨id, fun new hsets => ?_⟩
    have hsame := Except.ok.inj (canonical_absent.symm.trans hsets.1)
    exact absurd hsame (by decide)
  have hlast : Leaves linked changes absent touching :=
    ⟨changes.take 4, .replace absent touching, [], rfl, ⟨canonical_absent, rfl⟩, by simp⟩
  obtain ⟨hslice, -, isIn, hisIn, hiff⟩ := hlookup _ _ canonical_throughLink
  refine ⟨s, hs, ?_, hslice [] hempty, ?_, (hlookup _ _ canonical_absent).1 _ hlast⟩
  · obtain rfl := Except.ok.inj (hs.symm.trans hafter)
    rfl
  · rw [hisIn, hiff.2 ⟨[], hempty⟩]

end LintBridge.Sample
