import RubyLint.Project.Run
import RubyLint.Proofs.Discovery

/-!
# Runs do not depend on the order of a walk

A file system lists its entries in an order of its own, and a walk yields files in that order. The
files are sorted before they are looked at, so a run comes out the same: with the same report, or
the same failure at the same file.

* `Disk.Alike`: disks that cannot be told apart by looking at places; all that a walk asks of a disk
  is the same for both.
* `Disk.Reorders`: the same entries in another order.
* `Analyzer.walk_cases`: what of a walk depends on the order.
* `Analyzer.failure?`, `Analyzer.blamed?`: the file that ends a run, and how.
* `Analyzer.analyze_reordered`: **every order of the walk gives the same run.**
-/

namespace RubyLint

/-- Each order of what a list yields is yielded by the list in some order. -/
theorem exists_perm_filterMap {α β : Type} {f : α → Option β} {l : List α} {order : List β}
    (h : order.Perm (l.filterMap f)) : ∃ l' : List α, l'.Perm l ∧ l'.filterMap f = order := by
  induction l generalizing order with
  | nil => exact ⟨[], .rfl, h.eq_nil.symm⟩
  | cons x l ih =>
    cases hx : f x with
    | none =>
      rw [List.filterMap_cons_none hx] at h
      obtain ⟨l', hperm, hl'⟩ := ih h
      exact ⟨x :: l', hperm.cons x, by rw [List.filterMap_cons_none hx, hl']⟩
    | some y =>
      rw [List.filterMap_cons_some hx] at h
      -- `x` goes where `y` stands
      obtain ⟨before, after, rfl⟩ := List.append_of_mem (h.symm.subset List.mem_cons_self)
      obtain ⟨l', hperm, hl'⟩ := ih (List.perm_middle.symm.trans h).cons_inv
      obtain ⟨l₁, l₂, rfl, rfl, rfl⟩ := List.filterMap_eq_append_iff.1 hl'
      exact ⟨l₁ ++ x :: l₂, List.perm_middle.trans (hperm.cons x), by simp [hx]⟩

namespace Disk

variable {d d' : Disk} {place : Place} {data : FileData}

/-- Disks that cannot be told apart by looking at places. -/
structure Alike (d d' : Disk) : Prop where
  read?_eq : d'.read? = d.read?
  isDir_eq : d'.isDir = d.isDir

namespace Alike

protected theorem refl (d : Disk) : d.Alike d := ⟨rfl, rfl⟩

theorem isFile_eq (h : d.Alike d') : d'.isFile = d.isFile := by
  unfold isFile
  rw [h.read?_eq]

theorem resolve?_eq (h : d.Alike d') : d'.resolve? = d.resolve? :=
  resolve?_congr h.isFile_eq h.isDir_eq

theorem open?_eq (h : d.Alike d') : d'.open? = d.open? := by
  unfold open?
  rw [h.resolve?_eq, h.read?_eq]

theorem text?_eq (h : d.Alike d') : d'.text? = d.text? := by
  unfold text?
  rw [h.open?_eq]

theorem repositoryPart_eq (h : d.Alike d') (around : List (Place × Place)) :
    d'.repositoryPart around = d.repositoryPart around := by
  have htop : d'.isRepository = d.isRepository := by
    unfold isRepository holds
    rw [h.isFile_eq, h.isDir_eq]
  induction around with
  | nil => rfl
  | cons holder around ih => simp only [repositoryPart, htop, ih]

theorem ignoreLines_eq (h : d.Alike d') : d'.ignoreLines = d.ignoreLines := by
  unfold ignoreLines
  rw [h.open?_eq]

theorem ignoreRules_eq (h : d.Alike d') : d'.ignoreRules = d.ignoreRules := by
  unfold ignoreRules
  rw [h.ignoreLines_eq]

theorem isMalformedList_eq (h : d.Alike d') : d'.isMalformedList = d.isMalformedList := by
  unfold isMalformedList
  rw [h.ignoreLines_eq]

theorem ownList_eq (h : d.Alike d') : d'.ownList = d.ownList := by
  have hline : d'.firstLine = d.firstLine := by
    unfold firstLine
    rw [h.resolve?_eq, h.read?_eq]
  unfold ownList linkedRepository
  rw [h.isFile_eq, hline]

theorem userRules_eq (h : d.Alike d') : d'.userRules = d.userRules := by
  unfold userRules userList? namedList?
  rw [h.open?_eq, h.ignoreRules_eq]

end Alike

/-- A disk with the entries of another, listed in another order. -/
structure Reorders (d' d : Disk) : Prop where
  files : d'.files.Perm d.files
  dirs : d'.dirs.Perm d.dirs

theorem WellFormed.read?_eq_some_iff (hd : d.WellFormed) :
    d.read? place = some data ↔ (place, data) ∈ d.files := by
  unfold read?
  constructor
  · intro h
    obtain ⟨before, after, hfiles, -⟩ := List.lookup_eq_some_iff.1 h
    rw [hfiles]
    exact List.mem_append_right _ List.mem_cons_self
  · intro h
    obtain ⟨before, after, hfiles⟩ := List.append_of_mem h
    refine List.lookup_eq_some_iff.2 ⟨before, after, hfiles, fun entry hentry => ?_⟩
    -- an earlier entry at the place would make two
    have honce := hd.once
    rw [hfiles, List.map_append, List.nodup_append] at honce
    have hne := honce.2.2 entry.1 (List.mem_map_of_mem hentry) place (by simp)
    exact bne_iff_ne.2 hne.symm

namespace Reorders

theorem wellFormed (h : d'.Reorders d) (hd : d.WellFormed) : d'.WellFormed where
  once := (h.files.map (·.1)).nodup_iff.2 hd.once
  named := fun entry hentry => hd.named entry (h.files.subset hentry)

/-- The order of the entries cannot be told by looking at places. -/
theorem alike (h : d'.Reorders d) (hd : d.WellFormed) : d.Alike d' where
  read?_eq := by
    funext place
    apply Option.ext
    intro data
    rw [(h.wellFormed hd).read?_eq_some_iff, hd.read?_eq_some_iff]
    exact h.files.mem_iff
  isDir_eq := by
    funext place
    unfold isDir
    rw [h.dirs.contains_eq]

end Reorders

end Disk

namespace Survey

variable {s : Survey} {d' : Disk}

/-- The survey of another disk. -/
def on (s : Survey) (d : Disk) : Survey :=
  { s with disk := d }

theorem verdict?_on (h : s.disk.Alike d') : (s.on d').verdict? = s.verdict? := by
  unfold verdict? opinion? Disk.ownList? on
  simp only [h.ignoreRules_eq, h.ownList_eq, h.userRules_eq, h.repositoryPart_eq]
  rfl

theorem reaches_on (h : s.disk.Alike d') (sofar way : Place) :
    (s.on d').reaches sofar way = s.reaches sofar way := by
  have hskip : (s.on d').isSkipped = s.isSkipped := by
    unfold isSkipped
    rw [verdict?_on h]
  induction way generalizing sofar with
  | nil => rfl
  | cons name way ih => simp only [reaches, hskip, ih]

theorem visible_on (h : s.disk.Alike d') : (s.on d').visible = d'.files.filterMap s.wayTo? := by
  have hway : (s.on d').wayTo? = s.wayTo? := by
    unfold wayTo?
    simp only [reaches_on h]
    rfl
  rw [visible_eq, hway]
  rfl

theorem fault?_on (h : s.disk.Alike d') : (s.on d').fault? = s.fault? := by
  unfold fault? faultIn? on
  simp only [h.isMalformedList_eq, h.ownList_eq]

end Survey

namespace Path

/-- Paths that differ in their components are sorted into one order. -/
theorem mergeSort_eq_of_perm {l l' : List Path} (h : l'.Perm l)
    (hinj : ∀ p ∈ l, ∀ q ∈ l, p.components = q.components → p = q) :
    (l'.mergeSort fun p q => (p.compare q).isLE) = l.mergeSort fun p q => (p.compare q).isLE := by
  have hsorted (l : List Path) := List.pairwise_mergeSort compare_le_trans compare_le_total l
  refine List.Perm.eq_of_pairwise ?_ (hsorted l') (hsorted l)
    (((List.mergeSort_perm _ _).trans h).trans (List.mergeSort_perm _ _).symm)
  intro p q hp hq hle hge
  exact hinj p (h.subset (List.mem_mergeSort.1 hp)) q (List.mem_mergeSort.1 hq)
    (compare_eq_iff.1 (Std.OrientedCmp.isLE_antisymm hle hge))

end Path

namespace Analyzer

variable {a : Analyzer} {g : Grammar} {d d' : Disk} {paths walked order : List Path} {e : RunError}

theorem walk_of_fault {base : Place} {file : Path}
    (hbase : d.resolve? a.root = some base ∧ d.isFile base = false)
    (hfault : (a.survey d base).fault? = some file) :
    a.walk d = .error (.faultyIgnoreFile file) := by
  unfold survey at hfault
  simp [walk, hbase.1, hbase.2, hfault]

theorem walk_of_no_fault {base : Place}
    (hbase : d.resolve? a.root = some base ∧ d.isFile base = false)
    (hfault : (a.survey d base).fault? = none) :
    a.walk d = .ok ((a.survey d base).visible.map a.root.below) := by
  unfold survey at hfault
  simp only [walk, hbase.1, hbase.2, hfault, Bool.false_eq_true, if_false]
  rfl

/-- **What of a walk depends on the order of the files**: a walk that fails and a walk from a file
do not, and any other yields what each file adds. -/
theorem walk_cases (a : Analyzer) (d : Disk) :
    (∃ e, ∀ d', d.Alike d' → a.walk d' = .error e) ∨
      (∀ d', d.Alike d' → a.walk d' = .ok [a.root]) ∨
      ∃ pathTo? : Place × FileData → Option Path,
        ∀ d', d.Alike d' → a.walk d' = .ok (d'.files.filterMap pathTo?) := by
  cases hroot : d.resolve? a.root with
  | none =>
    refine .inl ⟨.noSuchRoot a.root, fun d' h => ?_⟩
    unfold walk
    rw [h.resolve?_eq, hroot]
  | some base =>
    cases hfile : d.isFile base with
    | true =>
      refine .inr (.inl fun d' h => ?_)
      unfold walk
      simp only [h.resolve?_eq, hroot, h.isFile_eq, hfile, if_true]
    | false =>
      have hbase : ∀ d', d.Alike d' → d'.resolve? a.root = some base ∧ d'.isFile base = false :=
        fun d' h => ⟨by rw [h.resolve?_eq, hroot], by rw [h.isFile_eq, hfile]⟩
      cases hfault : (a.survey d base).fault? with
      | some file =>
        refine .inl ⟨.faultyIgnoreFile file, fun d' h => ?_⟩
        exact walk_of_fault (hbase d' h) ((Survey.fault?_on h).trans hfault)
      | none =>
        refine .inr (.inr ⟨fun entry => ((a.survey d base).wayTo? entry).map a.root.below, ?_⟩)
        intro d' h
        have hvisible : (a.survey d' base).visible = d'.files.filterMap (a.survey d base).wayTo? :=
          Survey.visible_on (s := a.survey d base) h
        rw [walk_of_no_fault (hbase d' h) ((Survey.fault?_on h).trans hfault), hvisible,
          List.map_filterMap]

/-- The same files are found in the same order. -/
theorem discover_reordered (hd : d.WellFormed) (h : d'.Reorders d) :
    a.discover d' = a.discover d := by
  unfold discover
  rcases walk_cases a d with ⟨e, hwalk⟩ | hwalk | ⟨pathTo?, hwalk⟩
  · rw [hwalk d' (h.alike hd), hwalk d (.refl d)]
  · rw [hwalk d' (h.alike hd), hwalk d (.refl d)]
  · have hok := hwalk d (.refl d)
    rw [hwalk d' (h.alike hd), hok]
    refine congrArg Except.ok (Path.mergeSort_eq_of_perm ((h.files.filterMap pathTo?).filter _) ?_)
    intro p hp q hq
    exact eq_of_components hd hok (List.mem_of_mem_filter hp) (List.mem_of_mem_filter hq)

/-- A walk yields its files in each order, if the disk lists its own so. -/
theorem exists_reorders (hd : d.WellFormed) (hwalk : a.walk d = .ok walked)
    (horder : order.Perm walked) : ∃ d' : Disk, d'.Reorders d ∧ a.walk d' = .ok order := by
  have hsame : d.Reorders d := ⟨.rfl, .rfl⟩
  rcases walk_cases a d with ⟨e, hcase⟩ | hcase | ⟨pathTo?, hcase⟩
  · rw [hcase d (.refl d)] at hwalk
    cases hwalk
  · rw [hcase d (.refl d)] at hwalk
    cases hwalk
    exact ⟨d, hsame, by rw [hcase d (.refl d), horder.eq_singleton]⟩
  · rw [hcase d (.refl d)] at hwalk
    cases hwalk
    obtain ⟨files, hfiles, hyield⟩ := exists_perm_filterMap horder
    have hre : ({ d with files } : Disk).Reorders d := ⟨hfiles, .rfl⟩
    exact ⟨{ d with files }, hre, by rw [hcase _ (hre.alike hd), ← hyield]⟩

/-- Why a run ends at a file: it is no text, or it cannot be read as Ruby and the analyzer is set to
fail on that. -/
def failure? (a : Analyzer) (g : Grammar) (d : Disk) (p : Path) : Option RunError :=
  match d.text? p with
  | none => some .notText
  | some content =>
    match a.analyzeSource g p content with
    | .ok _ => none
    | .error e => if a.failOnParseError then some (.unreadable p e) else none

/-- The first of some files at which a run ends, and why. -/
def blamed? (a : Analyzer) (g : Grammar) (d : Disk) (paths : List Path) :
    Option (Path × RunError) :=
  paths.findSome? fun p => (a.failure? g d p).map (p, ·)

theorem blamed?_cons (p : Path) (paths : List Path) :
    a.blamed? g d (p :: paths) =
      match a.failure? g d p with
      | some e => some (p, e)
      | none => a.blamed? g d paths := by
  unfold blamed?
  rw [List.findSome?_cons]
  cases a.failure? g d p <;> rfl

theorem analyzeFiles_congr (h : d.Alike d') (paths : List Path) (report : Report) :
    a.analyzeFiles g d' paths report = a.analyzeFiles g d paths report := by
  induction paths generalizing report with
  | nil => rfl
  | cons p paths ih => simp only [analyzeFiles, h.text?_eq, ih]

theorem blamed?_congr (h : d.Alike d') (paths : List Path) :
    a.blamed? g d' paths = a.blamed? g d paths := by
  unfold blamed? failure?
  rw [h.text?_eq]

/-- A run over files fails where the first file fails, and as that file does. -/
theorem analyzeFiles_eq_error_iff (paths : List Path) (report : Report) :
    (a.analyzeFiles g d paths report).result = .error e ↔
      ∃ p, a.blamed? g d paths = some (p, e) := by
  induction paths generalizing report with
  | nil => simp [analyzeFiles, blamed?]
  | cons p paths ih =>
    rw [analyzeFiles, blamed?_cons, failure?]
    cases d.text? p with
    | none => simp
    | some content =>
      simp only
      cases a.analyzeSource g p content with
      | ok violations => exact ih _
      | error fault =>
        simp only
        cases a.failOnParseError with
        | true => simp
        | false => exact ih report

/-- **Every order of the walk gives the same run.** Entries listed in another order give the same
run, and the same file to blame if it fails; a walk may come in each order of its files; and a run
over the files found fails as the first of them that fails. They are in strict path order. This
order is total, goes component by component, and takes no two paths with different components for
equal. -/
theorem analyze_reordered (a : Analyzer) (g : Grammar) (hd : d.WellFormed) :
    (∀ d' : Disk, d'.Reorders d →
      a.analyze g d' = a.analyze g d ∧
      ∀ paths, a.discover d = .ok paths →
        a.discover d' = .ok paths ∧ a.blamed? g d' paths = a.blamed? g d paths) ∧
    (∀ walked order, a.walk d = .ok walked → order.Perm walked →
      ∃ d' : Disk, d'.Reorders d ∧ a.walk d' = .ok order) ∧
    (∀ paths, a.discover d = .ok paths →
      (∀ e, (a.analyze g d).result = .error e ↔ ∃ p, a.blamed? g d paths = some (p, e)) ∧
      paths.Pairwise fun p q => p.compare q = .lt) ∧
    Std.TransCmp Path.compare ∧
    ∀ p q : Path,
      p.compare q = List.compareLex Path.Component.compare p.components q.components ∧
      (p.compare q = .eq ↔ p.components = q.components) := by
  refine ⟨fun d' h => ⟨?_, fun paths hpaths => ⟨?_, ?_⟩⟩, ?_, ?_, inferInstance, ?_⟩
  · unfold analyze
    simp only [discover_reordered hd h, analyzeFiles_congr (h.alike hd)]
  · rw [discover_reordered hd h, hpaths]
  · exact blamed?_congr (h.alike hd) paths
  · intro walked order hwalk horder
    exact exists_reorders hd hwalk horder
  · intro paths hpaths
    refine ⟨fun e => ?_, discover_strict hd hpaths⟩
    rw [← analyzeFiles_eq_error_iff paths {}]
    unfold analyze
    rw [hpaths]
    simp only
    cases (a.analyzeFiles g d paths {}).result <;> simp
  · intro p q
    refine ⟨?_, Path.compare_eq_iff⟩
    exact congrFun₂ Path.compareComponents_eq_compareLex p.components q.components

/-- An analyzer without rules that fails on Ruby it cannot read. -/
def strict : Analyzer where
  root := ⟨"/"⟩
  surroundings := { workingDir := ⟨"/"⟩ }
  rules := []
  textRules := []
  exclude := []
  config := {}
  failOnParseError := true

/-- A disk with two files that end a run, each in its own way. -/
def twoFailures : Disk where
  files := [(["a-b.rb"], .text "end"), (["a", "c.rb"], .binary [0xFF])]
  dirs := [["a"]]

/-- The one file comes first in the walk, the other one in path order. -/
theorem analyze_reordered_two_failures :
    twoFailures.WellFormed ∧
      ∃ d' : Disk, d'.Reorders twoFailures ∧
        strict.walk twoFailures = .ok [⟨"/a-b.rb"⟩, ⟨"/a/c.rb"⟩] ∧
        strict.walk d' = .ok [⟨"/a/c.rb"⟩, ⟨"/a-b.rb"⟩] ∧
        strict.analyze (fun _ => none) d' = strict.analyze (fun _ => none) twoFailures ∧
        (strict.analyze (fun _ => none) d').result = .error .notText := by
  have hd : twoFailures.WellFormed := by decide
  obtain ⟨hsame, hyields, hends, -⟩ := analyze_reordered strict (fun _ => none) hd
  have hwalk : strict.walk twoFailures = .ok [⟨"/a-b.rb"⟩, ⟨"/a/c.rb"⟩] := by
    decide +kernel
  have hfound : strict.discover twoFailures = .ok [⟨"/a/c.rb"⟩, ⟨"/a-b.rb"⟩] := by
    have hkept : [⟨"/a-b.rb"⟩, ⟨"/a/c.rb"⟩].filter (fun p => strict.wants p && !strict.excludes p) =
        [⟨"/a-b.rb"⟩, ⟨"/a/c.rb"⟩] := by decide +kernel
    have hlate : ((⟨"/a-b.rb"⟩ : Path).compare ⟨"/a/c.rb"⟩).isLE = false := by decide +kernel
    rw [discover, hwalk, Except.map, hkept]
    simp [List.mergeSort, hlate]
  have hblamed : strict.blamed? (fun _ => none) twoFailures [⟨"/a/c.rb"⟩, ⟨"/a-b.rb"⟩] =
      some (⟨"/a/c.rb"⟩, .notText) := by decide +kernel
  obtain ⟨d', hre, hwalk'⟩ := hyields _ [⟨"/a/c.rb"⟩, ⟨"/a-b.rb"⟩] hwalk (.swap _ _ _)
  have hrun := (hsame d' hre).1
  refine ⟨hd, d', hre, hwalk, hwalk', hrun, ?_⟩
  rw [hrun]
  exact ((hends _ hfound).1 .notText).2 ⟨_, hblamed⟩

end Analyzer

end RubyLint
