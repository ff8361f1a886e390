import DoubleEntry.Loading.Basic
import Mathlib.Data.List.Chain
import Mathlib.Data.List.Nodup
import Mathlib.Logic.Relation

/-!
# The order of files

A ledger meets its files in depth-first preorder of their include lines, each readable one once.
This says so without a stack: what is met next is the first file not met before that the latest
unfinished file includes.

* `Files.targets`: the files that a file includes, in the order of its include lines.
* `Files.Next`: what is met after some visits; `Files.Traversal` are the visits from the root on.
* `Traversal.exists_visit_iff`: a complete traversal has met exactly the readable files that the root
  reaches.
* `Traversal.eq_of_complete`: there is only one complete traversal.
-/

namespace DoubleEntry

/-- A file as a ledger meets it. -/
structure Visit where
  /-- The canonical path. -/
  path : String
  /-- The files that include it, from the root on. -/
  chain : List String
deriving DecidableEq, Repr

namespace Files

variable {files : Files} {root path : String} {visits : List Visit} {u v : Visit}

/-- Whether a file can be read. -/
def Readable (files : Files) (path : String) : Prop := (files.texts.lookup path).isSome

instance (files : Files) (path : String) : Decidable (files.Readable path) :=
  inferInstanceAs (Decidable (_ = true))

/-- What a file says; nothing if it cannot be read. -/
def journal (files : Files) (path : String) : Journal :=
  ((files.texts.lookup path).bind fun text => (Journal.ofText text).value?).getD ⟨[]⟩

/-- Where an include line of a file leads to. -/
def target? (files : Files) (path : String) (i : IncludeLine) : Option String :=
  (files.resolve (Path.join (Path.parent path) i.path)).toOption

/-- The files that a file includes, in the order of its include lines. -/
def targets (files : Files) (path : String) : List String :=
  (files.journal path).inclusions.filterMap (files.target? path)

/-- Whether a file is reached from another through include lines. -/
def Reaches (files : Files) : String → String → Prop :=
  Relation.ReflTransGen fun path target => target ∈ files.targets path

/-- Whether a file can be read and none of the visits was to it. -/
def Unmet (files : Files) (visits : List Visit) (path : String) : Prop :=
  files.Readable path ∧ path ∉ visits.map (·.path)

instance (files : Files) (visits : List Visit) (path : String) :
    Decidable (files.Unmet visits path) :=
  inferInstanceAs (Decidable (_ ∧ _))

/-- Whether all readable files that a visited file includes have been met. -/
def Finished (files : Files) (visits : List Visit) (v : Visit) : Prop :=
  ∀ path ∈ files.targets v.path, ¬files.Unmet visits path

/-- What is met after some visits: first the root; then, from the latest file `u` that is not
finished, the first file not met before. -/
inductive Next (files : Files) (root : String) : List Visit → Visit → Prop
  | root (h : files.Readable root) : Next files root [] ⟨root, []⟩
  | target {earlier later : List Visit} {u v : Visit}
      (hlater : ∀ w ∈ later, files.Finished (earlier ++ u :: later) w)
      (hpath : (files.targets u.path).find? (files.Unmet (earlier ++ u :: later) ·) = some v.path)
      (hchain : v.chain = u.chain ++ [u.path]) :
      Next files root (earlier ++ u :: later) v

/-- The visits of a ledger to its files, from the root on, up to any of them. -/
inductive Traversal (files : Files) (root : String) : List Visit → Prop
  | start : Traversal files root []
  | next {visits : List Visit} {v : Visit} (h : Traversal files root visits)
      (hnext : files.Next root visits v) : Traversal files root (visits ++ [v])

/-- Whether nothing is left to be met after some visits. -/
def Complete (files : Files) (visits : List Visit) : Prop :=
  visits ≠ [] ∧ ∀ v ∈ visits, files.Finished visits v

theorem Unmet.of_append {more : List Visit} (h : files.Unmet (visits ++ more) path) :
    files.Unmet visits path :=
  ⟨h.1, fun hin => h.2 (by simp only [List.map_append, List.mem_append, hin, true_or])⟩

/-- What is finished stays so. -/
theorem Finished.append (h : files.Finished visits v) (more : List Visit) :
    files.Finished (visits ++ more) v :=
  fun path htarget hunmet => h path htarget hunmet.of_append

theorem Next.unmet (h : files.Next root visits v) : files.Unmet visits v.path := by
  cases h with
  | root h => exact ⟨h, by simp⟩
  | target _ hpath => simpa using List.find?_some hpath

/-- An unreadable file includes nothing. -/
theorem readable_of_mem_targets {target : String} (h : target ∈ files.targets path) :
    files.Readable path := by
  unfold Readable
  cases hread : files.texts.lookup path with
  | none => simp [targets, journal, hread, Journal.inclusions] at h
  | some text => rfl

/-- Only one file comes next: the latest that is not finished is the same, however it is found. -/
theorem Next.unique {v' : Visit} (h : files.Next root visits v) (h' : files.Next root visits v') :
    v = v' := by
  have latest {earlier later earlier' later' : List Visit} {u u' : Visit} {path : String}
      (heq : earlier ++ u :: later = earlier' ++ u' :: later')
      (hlater : ∀ w ∈ later, files.Finished (earlier ++ u :: later) w)
      (hpath : (files.targets u'.path).find? (files.Unmet (earlier' ++ u' :: later') ·) =
        some path) : u' ∉ later := fun hin =>
    hlater u' hin path (List.mem_of_find?_eq_some hpath)
      (by rw [heq]; simpa using List.find?_some hpath)
  cases h with
  | root =>
    generalize hnil : [] = visits at h'
    cases h' with
    | root => rfl
    | target => simp at hnil
  | @target earlier later u _ hlater hpath hchain =>
    generalize hvisits : earlier ++ u :: later = visits at h'
    cases h' with
    | root => simp at hvisits
    | @target earlier' later' u' _ hlater' hpath' hchain' =>
      have hnot : u' ∉ later := latest hvisits hlater hpath'
      have hnot' : u ∉ later' := latest hvisits.symm hlater' hpath
      obtain rfl : u = u' := by
        obtain ⟨mid, -, hmid⟩ | ⟨mid, -, hmid⟩ := List.append_eq_append_iff.1 hvisits
        · cases mid with
          | nil => exact (List.cons.inj hmid).1
          | cons a mid => exact absurd (by simp [(List.cons.inj hmid).2]) hnot
        · cases mid with
          | nil => exact (List.cons.inj hmid).1.symm
          | cons a mid => exact absurd (by simp [(List.cons.inj hmid).2]) hnot'
      rw [hvisits, hpath'] at hpath
      obtain ⟨path, chain⟩ := v
      obtain ⟨path', chain'⟩ := v'
      simp_all

theorem Complete.not_next (h : files.Complete visits) : ¬files.Next root visits v := by
  intro hnext
  cases hnext with
  | root => exact h.1 rfl
  | @target earlier later u _ _ hpath _ =>
    exact h.2 u (by simp) v.path (List.mem_of_find?_eq_some hpath)
      (by simpa using List.find?_some hpath)

namespace Traversal

/-- A traversal grows by what comes next. -/
theorem next_of_append {more : List Visit} (h : files.Traversal root (visits ++ v :: more)) :
    files.Next root visits v := by
  generalize hall : visits ++ v :: more = all at h
  induction h generalizing more with
  | start => simp at hall
  | @next before w _ hnext ih =>
    cases more using List.reverseRecOn with
    | nil =>
      obtain ⟨rfl, hv⟩ := List.append_inj' hall rfl
      obtain rfl := List.singleton_inj.1 hv
      exact hnext
    | append_singleton more w' =>
      rw [← List.cons_append, ← List.append_assoc] at hall
      exact ih (List.append_inj' hall rfl).1

theorem readable (h : files.Traversal root visits) : ∀ v ∈ visits, files.Readable v.path := by
  induction h with
  | start => simp
  | next _ hnext ih => simpa [or_imp, forall_and] using ⟨ih, hnext.unmet.1⟩

/-- No file is met twice. -/
theorem nodup (h : files.Traversal root visits) : (visits.map (·.path)).Nodup := by
  induction h with
  | start => simp
  | next _ hnext ih =>
    rw [List.map_append, List.nodup_append']
    exact ⟨ih, by simp, by simpa using hnext.unmet.2⟩

theorem root_mem (h : files.Traversal root visits) (hne : visits ≠ []) :
    ⟨root, []⟩ ∈ visits := by
  induction h with
  | start => exact absurd rfl hne
  | next _ hnext ih =>
    cases hnext with
    | root => simp
    | target => exact List.mem_append_left _ (ih (by simp))

/-- What holds of the root and goes along include lines holds of every visit. -/
theorem forall_visits {P : Visit → Prop} (h : files.Traversal root visits) (hroot : P ⟨root, []⟩)
    (htarget : ∀ u v, P u → v.path ∈ files.targets u.path → v.chain = u.chain ++ [u.path] → P v) :
    ∀ v ∈ visits, P v := by
  induction h with
  | start => simp
  | next _ hnext ih =>
    intro v hv
    obtain hv | rfl := by simpa using hv
    · exact ih v hv
    · cases hnext with
      | root => exact hroot
      | target _ hpath hchain =>
        exact htarget _ v (ih _ (by simp)) (List.mem_of_find?_eq_some hpath) hchain

/-- The files that include a visited file are a chain of include lines from the root to it. -/
theorem isChain (h : files.Traversal root visits) : ∀ v ∈ visits,
    (v.chain ++ [v.path]).head? = some root ∧
      (v.chain ++ [v.path]).IsChain fun path target => target ∈ files.targets path := by
  refine h.forall_visits (by simp) fun u v ⟨hhead, hu⟩ hpath hchain => ?_
  rw [hchain, List.isChain_append]
  exact ⟨by simpa using hhead, hu, by simp, by simpa using hpath⟩

theorem reaches (h : files.Traversal root visits) : ∀ v ∈ visits, files.Reaches root v.path :=
  h.forall_visits .refl fun _ _ hu hpath _ => hu.tail hpath

/-- A complete traversal has met all readable files that the root reaches. -/
theorem exists_visit_iff (h : files.Traversal root visits) (hcomplete : files.Complete visits) :
    (∃ v ∈ visits, v.path = path) ↔ files.Readable path ∧ files.Reaches root path := by
  constructor
  · rintro ⟨v, hv, rfl⟩
    exact ⟨h.readable v hv, h.reaches v hv⟩
  · rintro ⟨hread, hreach⟩
    induction hreach with
    | refl => exact ⟨⟨root, []⟩, h.root_mem hcomplete.1, rfl⟩
    | tail _ htarget ih =>
      obtain ⟨v, hv, rfl⟩ := ih (readable_of_mem_targets htarget)
      by_contra hnot
      exact hcomplete.2 v hv _ htarget ⟨hread, by simpa using hnot⟩

theorem isPrefix_of_complete {visits' : List Visit} (h : files.Traversal root visits)
    (h' : files.Traversal root visits') (hcomplete : files.Complete visits') :
    visits <+: visits' := by
  induction h with
  | start => exact List.nil_prefix
  | next _ hnext ih =>
    obtain ⟨more, rfl⟩ := ih
    cases more with
    | nil => exact absurd (by simpa using hnext) hcomplete.not_next
    | cons w more =>
      obtain rfl := hnext.unique h'.next_of_append
      exact ⟨more, by simp⟩

/-- There is only one complete traversal. -/
theorem eq_of_complete {visits' : List Visit} (h : files.Traversal root visits)
    (hcomplete : files.Complete visits) (h' : files.Traversal root visits')
    (hcomplete' : files.Complete visits') : visits = visits' :=
  (h.isPrefix_of_complete h' hcomplete').eq_of_length_le
    (h'.isPrefix_of_complete h hcomplete).length_le

end Traversal

end Files

end DoubleEntry
