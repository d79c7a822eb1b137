-- The laws of the task slot of `NetworkManager`. Each lookup cancels the task in
-- the slot, but none of them puts its own task there, so an older lookup lives
-- on beside a newer one.
import XellissimeBook.Lookup
import XellissimeBook.Runs

open runs
open xellissime_book.book_record

namespace xellissime_book.lookup

variable {Data : Type}

/-! ## The lookups of all controllers -/

inductive TaskEffect where
  | started (id : Nat)
  | calledBack (id : Nat) (answer : Answer)

/-- `NetworkManager.shared`, with what its lookups did so far, oldest first. -/
structure Lookups where
  manager : NetworkManager
  log : List TaskEffect

/-- No lookup was started so far. -/
def Lookups.initial : Lookups := { manager := NetworkManager.shared, log := [] }

inductive LookupEvent (Data : Type) where
  | start (provider : Provider) (fullUrl : URL) (isbn : String)
  | complete (id : Nat) (completion : Completion Data)

/-- One step: a controller starts a lookup, or a lookup completes and its block
calls back. -/
def Lookups.step (P : Platform Data) (s : Lookups) : LookupEvent Data → Option Lookups
  | .start provider fullUrl isbn =>
    some
      { manager := s.manager.start provider fullUrl isbn
        log := s.log ++ [.started s.manager.nextId] }
  | .complete id completion =>
    (s.manager.finish id completion).map fun (t, manager) =>
      { manager
        log := s.log ++ (t.provider.complete P t.isbn completion).map (.calledBack id) }

/-! ## What supersedes what -/

def startedId : TaskEffect → Option Nat
  | .started id => some id
  | .calledBack _ _ => none

/-- The lookup that was started last. -/
def newest (log : List TaskEffect) : Option Nat := lastSome startedId log

/-- At most the newest lookup is outstanding and not cancelled. -/
def OnlyNewest (s : Lookups) : Prop :=
  ∀ t ∈ s.manager.tasks, t.cancelled = false → newest s.log = some t.id

/-- The effect is no book of a lookup with a newer one behind it. -/
def FromNewest (before : List TaskEffect) (effect : TaskEffect) : Prop :=
  ∀ id book, effect = .calledBack id (found book) → newest before = some id

/-- A newer lookup supersedes the older ones: they are not outstanding any more,
and no book came from one. -/
structure Supersedes (s : Lookups) : Prop where
  outstanding : OnlyNewest s
  books : EachAfter FromNewest s.log

/-- A lookup is started while none is outstanding. -/
def StartsAlone (s : Lookups) : LookupEvent Data → Prop
  | .start _ _ _ => s.manager.tasks = []
  | .complete _ _ => True

instance decidableStartsAlone (s : Lookups) :
    ∀ event : LookupEvent Data, Decidable (StartsAlone s event)
  | .start _ _ _ => inferInstanceAs (Decidable (s.manager.tasks = []))
  | .complete _ _ => isTrue trivial

/-! ## The slot stays empty -/

/-- The slot is empty, so no task was ever cancelled. The ids count up. -/
structure NeverCancelled (m : NetworkManager) : Prop where
  task : m.task = none
  live : ∀ t ∈ m.tasks, t.cancelled = false
  below : ∀ t ∈ m.tasks, t.id < m.nextId

theorem NeverCancelled.start_eq {m : NetworkManager} (h : NeverCancelled m) (provider : Provider)
    (fullUrl : URL) (isbn : String) :
    m.start provider fullUrl isbn =
      { m with
        tasks := m.tasks ++ [{ id := m.nextId, provider, isbn, fullUrl, cancelled := false }]
        nextId := m.nextId + 1 } := by
  have hcancel : m.cancelTask = m := by
    obtain ⟨task, tasks, nextId⟩ := m
    have htask : task = none := h.task
    simp [NetworkManager.cancelTask, htask]
  unfold NetworkManager.start
  rw [hcancel]

theorem NeverCancelled.start {m : NetworkManager} (h : NeverCancelled m) (provider : Provider)
    (fullUrl : URL) (isbn : String) : NeverCancelled (m.start provider fullUrl isbn) := by
  rw [h.start_eq]
  refine ⟨h.task, ?_, ?_⟩
  · intro t ht
    rcases List.mem_append.mp ht with hold | hnew
    · exact h.live t hold
    · rw [List.mem_singleton.mp hnew]
  · intro t ht
    rcases List.mem_append.mp ht with hold | hnew
    · exact Nat.lt_succ_of_lt (h.below t hold)
    · rw [List.mem_singleton.mp hnew]
      exact Nat.lt_succ_self _

theorem neverCancelled_step (P : Platform Data) (s : Lookups) (event : LookupEvent Data)
    (s' : Lookups) (hs : NeverCancelled s.manager) (h : s.step P event = some s') :
    NeverCancelled s'.manager := by
  cases event with
  | start provider fullUrl isbn =>
    cases h
    exact hs.start provider fullUrl isbn
  | complete id completion =>
    obtain ⟨⟨t, manager⟩, hfin, rfl⟩ := Option.map_eq_some_iff.mp h
    obtain ⟨_, _, rfl⟩ := finish_eq_some hfin
    exact ⟨hs.task, fun t ht => hs.live t (List.mem_of_mem_filter ht),
      fun t ht => hs.below t (List.mem_of_mem_filter ht)⟩

/-! ## One step -/

/-- A start keeps the law exactly when no older lookup is outstanding. -/
theorem supersedes_start_iff {s : Lookups} (hn : NeverCancelled s.manager) (hs : Supersedes s)
    (provider : Provider) (fullUrl : URL) (isbn : String) :
    Supersedes
        { manager := s.manager.start provider fullUrl isbn
          log := s.log ++ [.started s.manager.nextId] } ↔
      s.manager.tasks = [] := by
  have hnewest : newest (s.log ++ [.started s.manager.nextId]) = some s.manager.nextId :=
    lastSome_snoc_some rfl
  constructor
  · rintro ⟨hout, _⟩
    rw [List.eq_nil_iff_forall_not_mem]
    intro t ht
    have hin : t ∈ (s.manager.start provider fullUrl isbn).tasks := by
      rw [hn.start_eq]
      exact List.mem_append_left _ ht
    have hid := hout t hin (hn.live t ht)
    rw [hnewest] at hid
    have hbelow := hn.below t ht
    have heq := Option.some.inj hid
    omega
  · intro hnil
    refine ⟨?_, eachAfter_snoc.mpr ⟨hs.books, fun _ _ he => by cases he⟩⟩
    intro t ht _
    dsimp only at ht ⊢
    rw [hn.start_eq, hnil, List.nil_append, List.mem_singleton] at ht
    rw [hnewest, ht]

/-- A completion always keeps it: the lookup was the newest. -/
theorem supersedes_complete {P : Platform Data} {s s' : Lookups} {id : Nat}
    {completion : Completion Data} (hn : NeverCancelled s.manager) (hs : Supersedes s)
    (h : s.step P (.complete id completion) = some s') : Supersedes s' := by
  obtain ⟨⟨t, manager⟩, hfin, rfl⟩ := Option.map_eq_some_iff.mp h
  obtain ⟨ht, hid, rfl⟩ := finish_eq_some hfin
  have hnewest : newest s.log = some id := by
    rw [← hid]
    exact hs.outstanding t ht (hn.live t ht)
  have hkeeps : ∀ more : List TaskEffect, newest (s.log ++ more) = newest s.log →
      ∀ t ∈ s.manager.tasks.filter (·.id ≠ id), t.cancelled = false →
        newest (s.log ++ more) = some t.id := by
    intro more hmore t ht hlive
    rw [hmore]
    exact hs.outstanding t (List.mem_of_mem_filter ht) hlive
  dsimp only
  rcases complete_answers P t.provider t.isbn completion with
    ⟨hans, _⟩ | ⟨hans | ⟨book, hans⟩, _⟩
  · rw [hans, List.map_nil]
    refine ⟨hkeeps [] (by rw [List.append_nil]), ?_⟩
    rw [List.append_nil]
    exact hs.books
  · rw [hans, List.map_singleton]
    refine ⟨hkeeps _ (lastSome_snoc_none rfl), eachAfter_snoc.mpr ⟨hs.books, ?_⟩⟩
    intro id' book he
    cases he
  · rw [hans, List.map_singleton]
    refine ⟨hkeeps _ (lastSome_snoc_none rfl), eachAfter_snoc.mpr ⟨hs.books, ?_⟩⟩
    intro id' book' he
    cases he
    exact hnewest

/-! ## The law -/

theorem supersedes_initial : Supersedes .initial :=
  ⟨fun _ ht => absurd ht List.not_mem_nil, eachAfter_nil FromNewest⟩

/-- A newer lookup supersedes the older ones all along a run exactly when each
lookup is started while none is outstanding. -/
theorem newer_lookups_supersede_iff_each_starts_alone (P : Platform Data)
    (es : List (LookupEvent Data)) (s : Lookups) (hr : run (Lookups.step P) .initial es = some s) :
    Throughout (Lookups.step P) Supersedes .initial es ↔
      Meets (Lookups.step P) (fun _ => StartsAlone) [] .initial es := by
  apply throughout_iff_meets (fun s => NeverCancelled s.manager) Supersedes
    (neverCancelled_step P) ?_ ?_ supersedes_initial hr
  · intro s event s' hn hs h
    cases event with
    | start provider fullUrl isbn =>
      cases h
      exact supersedes_start_iff hn hs provider fullUrl isbn
    | complete id completion => exact iff_of_true (supersedes_complete hn hs h) trivial
  · exact ⟨rfl, fun _ ht => absurd ht List.not_mem_nil, fun _ ht => absurd ht List.not_mem_nil⟩

def someUrl : URL := { absoluteString := "https://openlibrary.org/api/books" }

/-- A lookup that fails, and then another one. -/
def oneAfterTheOther : List (LookupEvent DecodedData) :=
  [.start .googleBooks someUrl "9782070411429", .complete 0 offline,
    .start .openLibrary someUrl "9782070411429", .complete 1 (ok200 entryOfOtherEdition)]

theorem newer_lookups_supersede_one_after_the_other :
    Throughout (Lookups.step decodedPlatform) Supersedes .initial oneAfterTheOther := by
  have hrun : (run (Lookups.step decodedPlatform) .initial oneAfterTheOther).isSome = true := by
    decide +kernel
  obtain ⟨s, hr⟩ := Option.isSome_iff_exists.mp hrun
  apply (newer_lookups_supersede_iff_each_starts_alone decodedPlatform oneAfterTheOther s hr).mpr
  decide +kernel

/-- Two lookups, of which the first one answers last. -/
def oneBesideTheOther : List (LookupEvent DecodedData) :=
  [.start .openLibrary someUrl "9782070411429", .start .openLibrary someUrl "9782253003656",
    .complete 1 offline, .complete 0 (ok200 entryOfOtherEdition)]

/-- The older lookup is not cancelled and delivers its book. -/
theorem an_older_lookup_delivers_its_book :
    ∃ s book, run (Lookups.step decodedPlatform) .initial oneBesideTheOther = some s ∧
      s.log = [.started 0, .started 1, .calledBack 1 failed, .calledBack 0 (found book)] ∧
      ¬ Throughout (Lookups.step decodedPlatform) Supersedes .initial oneBesideTheOther := by
  refine ⟨_, _, rfl, rfl, fun h => ?_⟩
  have hlast := h.last rfl
  have hnewest := hlast.books [.started 0, .started 1, .calledBack 1 failed] _ [] rfl 0 _ rfl
  cases hnewest

end xellissime_book.lookup
