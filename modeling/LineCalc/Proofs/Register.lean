/-
The store is a map: searching a row of slots and changing them in place answers like a finite map from names.

A `Request` is what a store can be asked: to note, create, expose or assign a name, and to read or find one. A
`Register` is a finite map from names to what is known of them, which answers the same requests by look-up and insertion
alone. `Store.Represents` ties the two, and every request keeps it and gets the same answer on both sides
(`Represents.serve`). That a name never has two slots, and that a value that was never given is 0, are kept along with
it (`Store.Kept`); they are what makes a row of slots a map.

Result:
- `serves_as_map`: after any requests, a store that was empty before shows what the map shows, and has answered as it
  has; its names are distinct, they are the names of the requests, and nothing that was readable gets lost.
-/
import Mathlib.Data.Finmap
import LineCalc.Proofs.Isolation

namespace LineCalc

/-! ## Requests -/

/-- what is known of a name -/
structure Entry where
  value : Int64
  assigned : Bool
  column : Nat
deriving DecidableEq, Repr

namespace Entry

/-- of a name that is new -/
def fresh : Entry := ⟨0, false, 0⟩

/-- the value that may be read -/
def value? (e : Entry) : Option Int64 :=
  if e.assigned then some e.value else none

end Entry

/-- what is known of the name of a slot -/
def Slot.entry (slot : Slot) : Entry := ⟨slot.stored, slot.assigned, slot.column⟩

/-- something that is asked of a store -/
inductive Request where
  | declare (name : String) (column : Nat)
  | create (name : String)
  | expose (name : String)
  | assign (name : String) (value : Int64)
  | read (name : String) (column : Nat)
  | find (name : String)
deriving DecidableEq, Repr

/-- what is told in return -/
inductive Answer where
  | done
  | value (r : Except Diagnostic Int64)
  | entry (e : Option Entry)

/-- the name that a request brings in if it is new; asking for a name does not bring it in -/
def Request.created? : Request → Option String
  | declare name _ | create name | expose name | assign name _ => some name
  | read _ _ | find _ => none

/-- the names that requests bring in -/
def created (requests : List Request) : List String := requests.filterMap Request.created?

namespace Store

def serve (s : Store) : Request → Answer × Store
  | .declare name column => (.done, s.declare name column)
  | .create name => (.done, s.create name)
  | .expose name => (.done, s.expose name)
  | .assign name v => (.done, s.assign name v)
  | .read name column => (.value (s.read name column), s)
  | .find name => (.entry ((s.find? name).map Slot.entry), s)

/-- the answers to requests one after another -/
def answers (s : Store) : List Request → List Answer
  | [] => []
  | r :: requests => (s.serve r).1 :: (s.serve r).2.answers requests

/-- the store that requests lead to -/
def after (requests : List Request) : Store := requests.foldl (fun s r => (s.serve r).2) .empty

end Store

/-! ## The map -/

/-- a map from names to what is known of them -/
abbrev Register := Finmap fun _ : String => Entry

namespace Register

/-- changes what is known of `name`, which is brought in first if it is new -/
def change (m : Register) (name : String) (f : Entry → Entry) : Register :=
  m.insert name (f ((m.lookup name).getD .fresh))

/-- the value of `name`; fails on a name that is not there, and on one whose value may not be read -/
def read (m : Register) (name : String) (column : Nat) : Except Diagnostic Int64 :=
  match m.lookup name with
  | none => .error (.unassigned name column)
  | some e => if e.assigned then .ok e.value else .error (.unassigned name e.column)

def serve (m : Register) : Request → Answer × Register
  | .declare name column => (.done, m.change name fun e => { e with column := column })
  | .create name => (.done, m.change name id)
  | .expose name => (.done, m.change name fun e => { e with assigned := true })
  | .assign name v => (.done, m.change name fun e => { e with value := v, assigned := true })
  | .read name column => (.value (m.read name column), m)
  | .find name => (.entry (m.lookup name), m)

/-- the answers to requests one after another -/
def answers (m : Register) : List Request → List Answer
  | [] => []
  | r :: requests => (m.serve r).1 :: answers (m.serve r).2 requests

/-- the map that requests lead to -/
def after (requests : List Request) : Register := requests.foldl (fun m r => (m.serve r).2) ∅

end Register

/-! ## Slots that represent a map -/

namespace Store

/-- the slots of `s` show what `m` holds -/
def Represents (s : Store) (m : Register) : Prop :=
  ∀ name, (s.find? name).map Slot.entry = m.lookup name

namespace Represents

variable {s : Store} {m : Register}

theorem getD (h : s.Represents m) (name : String) :
    ((s.find? name).getD (Slot.fresh name)).entry = (m.lookup name).getD .fresh := by
  rw [← h name]
  cases s.find? name <;> rfl

/-- changing a slot is changing what the map holds -/
theorem change (h : s.Represents m) (name : String) {f : Slot → Slot} {g : Entry → Entry}
    (hname : ∀ slot, (f slot).name = slot.name) (hentry : ∀ slot, (f slot).entry = g slot.entry) :
    (s.change name f).Represents (m.change name g) := by
  intro other
  by_cases hother : other = name
  · subst hother
    rw [find?_change_self s other f hname, Register.change, Finmap.lookup_insert, ← h.getD other, ← hentry]
    rfl
  · rw [find?_change_of_ne s f hname hother, Register.change, Finmap.lookup_insert_of_ne m hother]
    exact h other

theorem read_eq (h : s.Represents m) (name : String) (column : Nat) : s.read name column = m.read name column := by
  simp only [read, Register.read, ← h name]
  cases s.find? name with
  | none => rfl
  | some slot => cases hassigned : slot.assigned <;> simp [Slot.value?, Slot.entry, hassigned]

/-- **One request** gets the same answer from both, and they go on as before. -/
theorem serve (h : s.Represents m) (r : Request) :
    (s.serve r).1 = (m.serve r).1 ∧ (s.serve r).2.Represents (m.serve r).2 := by
  cases r with
  | declare name column => exact ⟨rfl, h.change name (fun _ => rfl) fun _ => rfl⟩
  | create name => exact ⟨rfl, h.change name (fun _ => rfl) fun _ => rfl⟩
  | expose name => exact ⟨rfl, h.change name (fun _ => rfl) fun _ => rfl⟩
  | assign name v => exact ⟨rfl, h.change name (fun _ => rfl) fun _ => rfl⟩
  | read name column => exact ⟨congrArg Answer.value (h.read_eq name column), h⟩
  | find name => exact ⟨congrArg Answer.entry (h name), h⟩

theorem answers_eq (h : s.Represents m) (requests : List Request) : s.answers requests = m.answers requests := by
  induction requests generalizing s m with
  | nil => rfl
  | cons r requests ih =>
    obtain ⟨hanswer, hafter⟩ := h.serve r
    rw [answers, Register.answers, hanswer, ih hafter]

end Represents

theorem represents_empty : Store.empty.Represents ∅ := by
  intro name
  rw [Finmap.lookup_empty]
  rfl

/-! ## What every request keeps -/

/-- a change that leaves a hidden value hidden and as it is keeps names distinct and hidden values 0 -/
theorem Kept.change {s : Store} (h : s.Kept) (name : String) {f : Slot → Slot}
    (hname : ∀ slot, (f slot).name = slot.name)
    (hhidden : ∀ slot, (f slot).assigned = false → slot.assigned = false ∧ (f slot).stored = slot.stored) :
    (s.change name f).Kept := by
  refine ⟨nodup_change name hname h.distinct, fun other => ?_⟩
  by_cases hother : other = name
  · subst hother
    simp only [content, find?_change_self s other f hname, Option.getD_some]
    intro hassigned
    obtain ⟨hbefore, hstored⟩ := hhidden _ hassigned
    rw [hstored]
    exact h.hidden other hbefore
  · simp only [content, find?_change_of_ne s f hname hother]
    exact h.hidden other

theorem Kept.serve {s : Store} (h : s.Kept) (r : Request) : (s.serve r).2.Kept := by
  cases r with
  | declare name column => exact h.change name (fun _ => rfl) fun _ hassigned => ⟨hassigned, rfl⟩
  | create name => exact h.change name (fun _ => rfl) fun _ hassigned => ⟨hassigned, rfl⟩
  | expose name => exact h.change name (fun _ => rfl) fun _ hassigned => by simp at hassigned
  | assign name v => exact h.change name (fun _ => rfl) fun _ hassigned => by simp at hassigned
  | read name column => exact h
  | find name => exact h

variable (s : Store)

/-- a request adds the name it brings in, if that is new -/
theorem mem_names_serve (r : Request) (name : String) :
    name ∈ (s.serve r).2.names ↔ name ∈ s.names ∨ r.created? = some name := by
  have hchange : ∀ (target : String) (f : Slot → Slot), (∀ slot, (f slot).name = slot.name) →
      (name ∈ (s.change target f).names ↔ name ∈ s.names ∨ some target = some name) := by
    intro target f hf
    rw [names_change s target f hf]
    split
    next hmem =>
      constructor
      · exact Or.inl
      · rintro (h | h)
        · exact h
        · cases h; exact hmem
    next => simp [eq_comm]
  cases r with
  | declare target column => exact hchange target _ fun _ => rfl
  | create target => exact hchange target _ fun _ => rfl
  | expose target => exact hchange target _ fun _ => rfl
  | assign target v => exact hchange target _ fun _ => rfl
  | read target column => simp [serve, Request.created?]
  | find target => simp [serve, Request.created?]

/-- what may be read once may be read after every request -/
theorem readable_serve (r : Request) {name : String} (h : (s.value? name).isSome) :
    ((s.serve r).2.value? name).isSome := by
  have hchange : ∀ (target : String) (f : Slot → Slot), (∀ slot, (f slot).name = slot.name) →
      (∀ slot, slot.assigned = true → (f slot).assigned = true) → ((s.change target f).value? name).isSome := by
    intro target f hf hassigned
    by_cases hname : name = target
    · subst hname
      cases hfind : s.find? name with
      | none => simp [value?, hfind] at h
      | some slot =>
        have hslot : slot.assigned = true := by simpa [value?, hfind, Slot.value?] using h
        simp [value?, find?_change_self s name f hf, hfind, Slot.value?, hassigned slot hslot]
    · rw [value?, find?_change_of_ne s f hf hname]
      exact h
  cases r with
  | declare target column => exact hchange target _ (fun _ => rfl) fun _ h => h
  | create target => exact hchange target _ (fun _ => rfl) fun _ h => h
  | expose target => exact hchange target _ (fun _ => rfl) fun _ _ => rfl
  | assign target v => exact hchange target _ (fun _ => rfl) fun _ _ => rfl
  | read target column => exact h
  | find target => exact h

/-! ## Requests one after another -/

/-- what holds of the empty store and is kept by every request holds after any requests -/
theorem after_induction (P : List Request → Store → Prop) (h : P [] .empty)
    (hstep : ∀ requests r s, P requests s → P (requests ++ [r]) (s.serve r).2) (requests : List Request) :
    P requests (after requests) := by
  induction requests using List.reverseRecOn with
  | nil => exact h
  | append_singleton requests r ih =>
    rw [after, List.foldl_append]
    exact hstep requests r _ ih

theorem after_append (requests more : List Request) :
    after (requests ++ more) = more.foldl (fun s r => (s.serve r).2) (after requests) := by
  rw [after, List.foldl_append]
  rfl

/-- what every request keeps holds however many follow -/
theorem kept_by_more (P : Store → Prop) (hstep : ∀ s r, P s → P (serve s r).2) {requests : List Request}
    (h : P (after requests)) (more : List Request) : P (after (requests ++ more)) := by
  rw [after_append]
  induction more using List.reverseRecOn with
  | nil => exact h
  | append_singleton more r ih =>
    rw [List.foldl_append]
    exact hstep _ r ih

theorem represents_after (requests : List Request) : (after requests).Represents (Register.after requests) := by
  refine after_induction (fun requests s => s.Represents (Register.after requests)) represents_empty ?_ requests
  intro requests r s h
  rw [Register.after, List.foldl_append]
  exact (h.serve r).2

theorem kept_of_requests (requests : List Request) : (after requests).Kept :=
  after_induction (fun _ s => s.Kept) ⟨List.nodup_nil, fun _ _ => rfl⟩ (fun _ r _ h => h.serve r) requests

/-- the names in a store are those that requests brought in -/
theorem mem_names_after (requests : List Request) (name : String) :
    name ∈ (after requests).names ↔ name ∈ created requests := by
  refine after_induction (fun requests s => name ∈ s.names ↔ name ∈ created requests) (by rfl) ?_ requests
  intro requests r s h
  rw [mem_names_serve, h]
  simp [created, List.filterMap_append]

/-- distinct names, so there are as many slots as names -/
theorem size_after (requests : List Request) : (after requests).size = (created requests).toFinset.card := by
  have hnames : (after requests).names.toFinset = (created requests).toFinset := by
    ext name
    rw [List.mem_toFinset, List.mem_toFinset, mem_names_after]
  rw [← hnames, List.toFinset_card_of_nodup (kept_of_requests requests).distinct, names, List.length_map, size]

/-- a slot is the one that its name is searched for -/
theorem find?_of_mem {s : Store} (h : s.names.Nodup) {slot : Slot} (hslot : slot ∈ s.slots) :
    s.find? slot.name = some slot := by
  obtain ⟨slots⟩ := s
  simp only [find?, names] at h hslot ⊢
  induction slots with
  | nil => cases hslot
  | cons first slots ih =>
    obtain ⟨hfirst, hrest⟩ := List.nodup_cons.1 h
    rcases List.mem_cons.1 hslot with rfl | hslot
    · simp
    · have hne : first.name ≠ slot.name := fun heq => hfirst (heq ▸ List.mem_map_of_mem hslot)
      rw [List.find?_cons_of_neg (by simpa using hne)]
      exact ih hrest hslot

/-- reading fails on a name that has no slot, at the column given, and on a hidden value, at the column of its slot -/
theorem read_eq_error_iff {s : Store} {name : String} {column : Nat} {d : Diagnostic} :
    s.read name column = .error d ↔
      (s.find? name = none ∧ d = .unassigned name column) ∨
        ∃ slot, s.find? name = some slot ∧ slot.assigned = false ∧ d = .unassigned name slot.column := by
  rw [read]
  cases s.find? name with
  | none => simp [@eq_comm _ d]
  | some slot => cases hassigned : slot.assigned <;> simp [Slot.value?, hassigned, @eq_comm _ d]

/-- **A store is a map from names.** After any requests to an empty store, let `m` be the map that the same requests
lead to.
- Store and map gave the same answers, and show the same for every name: what is known of it, the value that may be
  read, and what reading it comes to.
- No name stands twice, and there are as many slots as names that were brought in.
- Further requests lose no name, and hide no value that may be read.
- A value that may not be read is 0.
- Reading fails on the names that are not there, at the column given, and on those whose value may not be read, at the
  column that is known of them. -/
theorem serves_as_map (requests : List Request) :
    let s := after requests
    let m := Register.after requests
    (Store.empty.answers requests = Register.answers ∅ requests ∧
      (∀ name, (s.find? name).map Slot.entry = m.lookup name) ∧
      (∀ name, s.value? name = (m.lookup name).bind Entry.value?) ∧
      ∀ name column, s.read name column = m.read name column) ∧
    (s.names.Nodup ∧ s.size = (created requests).toFinset.card) ∧
    (∀ more name, (name ∈ s.names → name ∈ (after (requests ++ more)).names) ∧
      ((s.value? name).isSome → ((after (requests ++ more)).value? name).isSome)) ∧
    (∀ slot ∈ s.slots, slot.assigned = false → slot.stored = 0) ∧
    ∀ name column d, s.read name column = .error d ↔
      (s.find? name = none ∧ d = .unassigned name column) ∨
        ∃ slot, s.find? name = some slot ∧ slot.assigned = false ∧ d = .unassigned name slot.column := by
  intro s m
  have hrep : s.Represents m := represents_after requests
  have hkept : s.Kept := kept_of_requests requests
  refine ⟨⟨represents_empty.answers_eq requests, hrep, fun name => ?_, hrep.read_eq⟩,
    ⟨hkept.distinct, size_after requests⟩, fun more name => ⟨fun hmem => ?_, fun hvalue => ?_⟩, fun slot hslot hhidden => ?_,
    fun _ _ _ => read_eq_error_iff⟩
  · rw [value?, ← hrep name]
    cases s.find? name <;> rfl
  · exact kept_by_more (fun s => name ∈ s.names) (fun s r h => (s.mem_names_serve r name).2 (Or.inl h)) hmem more
  · exact kept_by_more (fun s => (s.value? name).isSome) (fun s r h => s.readable_serve r h) hvalue more
  · have hcontent : s.content slot.name = (slot.stored, slot.assigned) := by
      rw [content, find?_of_mem hkept.distinct hslot]
      rfl
    have hzero := hkept.hidden slot.name
    rw [hcontent] at hzero
    exact hzero hhidden

end Store

end LineCalc
