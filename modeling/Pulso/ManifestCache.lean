import Mathlib.Logic.Function.Basic

/-! The node's cache of one manifest root: readers, publishers, touches, drops and
evictions race on one ETS row, one table operation at a time. The version of a root is its
position in the object's CAS history; ETags carry no order and may recur. -/
namespace Pulso.ManifestCache
variable {Tag : Type}

structure Entry (Tag : Type) where
  version : Nat
  etag : Tag
  token : Nat
  refreshed : Int
  deriving DecidableEq, Repr

/-- The row of the key. A dropped or evicted entry leaves a generation fence; the key is
never removed again. -/
inductive Cell (Tag : Type) where
  | absent
  | fence (token : Nat)
  | live (entry : Entry Tag)
  deriving DecidableEq, Repr

namespace Cell

def token : Cell Tag → Option Nat
  | absent => none
  | fence token => some token
  | live entry => some entry.token

def entry : Cell Tag → Option (Entry Tag)
  | live entry => some entry
  | _ => none

def insertNew (cell object : Cell Tag) : Option (Cell Tag) :=
  match cell with
  | absent => some object
  | _ => none

/-- `select_replace` on the generation token. -/
def replaceToken (cell : Cell Tag) (token : Nat) (object : Cell Tag) : Option (Cell Tag) :=
  if cell.token = some token then some object else none

def replaceWarm [DecidableEq Tag] (cell : Cell Tag) (expected : Tag) (token : Nat)
    (object : Cell Tag) : Option (Cell Tag) :=
  match cell with
  | live entry => if entry.etag = expected ∧ entry.token = token then some object else none
  | _ => none

def replaceFence (cell : Cell Tag) (token : Nat) (object : Cell Tag) : Option (Cell Tag) :=
  match cell with
  | fence current => if current = token then some object else none
  | _ => none

end Cell

inductive Base where
  | warm (token : Nat)
  | cold (token : Option Nat)
  deriving DecidableEq, Repr

def Base.token : Base → Option Nat
  | warm token => some token
  | cold token => token

def publicationBase : Cell Tag → Base
  | .live entry => .warm entry.token
  | cell => .cold cell.token

/-- The install `put_snapshot` attempts, `none` when the table refuses it. -/
def snapshotInstall (token : Option Nat) (object cell : Cell Tag) : Option (Cell Tag) :=
  match token with
  | none => cell.insertNew object
  | some token => cell.replaceToken token object

def publishInstall [DecidableEq Tag] (base : Base) (expected : Option Tag) (object cell : Cell Tag) :
    Option (Cell Tag) :=
  match base with
  | .warm token => expected.bind fun expected => cell.replaceWarm expected token object
  | .cold none => cell.insertNew object
  | .cold (some token) => cell.replaceFence token object

/-- A reader between its table operations: it holds the generation it started from, then
what the conditional GET answered. `touching` is `touch` between its lookup and its replace. -/
inductive Reader (Tag : Type) where
  | idle
  | snapped (entry : Option (Entry Tag)) (token : Option Nat)
  | fetched (version : Nat) (etag : Tag) (token : Option Nat)
  | unchanged (token : Option Nat)
  | touching (entry : Entry Tag)
  deriving Repr

/-- A publisher: the base taken before its I/O, then the version it wrote (or read back after
a lost response) with the predecessor ETag it hands to `publish`. -/
inductive Publisher (Tag : Type) where
  | idle
  | based (base : Base)
  | committed (base : Base) (version : Nat) (etag : Tag) (expected : Option Tag)
  | refused (version : Nat)
  deriving Repr

structure State (Tag : Type) where
  cell : Cell Tag
  fresh : Nat
  current : Nat
  readers : Nat → Reader Tag
  publishers : Nat → Publisher Tag

def start (current : Nat) : State Tag := ⟨.absent,0,current,fun _ => .idle,fun _ => .idle⟩

namespace State

def setReader (s : State Tag) (id : Nat) (reader : Reader Tag) : State Tag :=
  { s with readers := Function.update s.readers id reader }

def setPublisher (s : State Tag) (id : Nat) (publisher : Publisher Tag) : State Tag :=
  { s with publishers := Function.update s.publishers id publisher }

/-- Every built entry or fence takes a new reference, whether or not it is installed. -/
def install (s : State Tag) (cell : Option (Cell Tag)) : State Tag :=
  { s with cell := cell.getD s.cell, fresh := s.fresh+1 }

end State

inductive Event (Tag : Type) where
  | elsewhere
  | snapshot (reader : Nat)
  | token (reader : Nat)
  | fetch (reader : Nat)
  | putSnapshot (reader : Nat) (now : Int)
  | touchLookup (reader : Nat)
  | touchReplace (reader : Nat) (now : Int)
  | base (publisher : Nat)
  | write (publisher : Nat) (predecessor expected : Option Tag)
  | readBack (publisher : Nat) (expected : Option Tag)
  | publish (publisher : Nat) (now : Int)
  | publishDrop (publisher : Nat)
  | abandon (reader publisher : Nat)
  | drop
  | evict (token : Nat)

section Steps
variable [DecidableEq Tag] (etags : Nat → Tag)

def current (s : State Tag) : Option Tag :=
  if s.current = 0 then none else some (etags s.current)

/-- The conditional GET: a missing object ends the read, an equal ETag answers 304. -/
def fetched (s : State Tag) (entry : Option (Entry Tag)) (token : Option Nat) : Reader Tag :=
  match current etags s with
  | none => .idle
  | some etag =>
    if entry.map Entry.etag = some etag then .unchanged token
    else .fetched s.current etag token

def step (s : State Tag) : Event Tag → State Tag
  -- another node's CAS, or one of this node's whose response was lost
  | .elsewhere => { s with current := s.current+1 }
  | .snapshot reader => s.setReader reader (.snapped s.cell.entry s.cell.token)
  | .token reader => s.setReader reader (.snapped none s.cell.token)
  | .fetch reader => match s.readers reader with
    | .snapped entry token => s.setReader reader (fetched etags s entry token)
    | _ => s
  | .putSnapshot reader now => match s.readers reader with
    | .fetched version etag token =>
      (s.install (snapshotInstall token (.live ⟨version,etag,s.fresh,now⟩) s.cell)).setReader reader .idle
    | _ => s
  | .touchLookup reader => match s.readers reader, s.cell with
    | .unchanged token, .live entry =>
      s.setReader reader (if token = some entry.token then .touching entry else .idle)
    | .unchanged _, _ => s.setReader reader .idle
    | _, _ => s
  | .touchReplace reader now => match s.readers reader with
    | .touching entry =>
      let touched := s.cell.replaceToken entry.token (.live { entry with refreshed := now })
      { s with cell := touched.getD s.cell }.setReader reader .idle
    | _ => s
  | .base publisher => s.setPublisher publisher (.based (publicationBase s.cell))
  -- a failed precondition leaves the publisher with its base: the owner retries under it
  | .write publisher predecessor expected => match s.publishers publisher with
    | .based base =>
      if current etags s = predecessor then
        { s with current := s.current+1 }.setPublisher publisher
          (.committed base (s.current+1) (etags (s.current+1)) expected)
      else s
    | _ => s
  | .readBack publisher expected => match s.publishers publisher, current etags s with
    | .based base, some etag => s.setPublisher publisher (.committed base s.current etag expected)
    | _, _ => s
  | .publish publisher now => match s.publishers publisher with
    | .committed base version etag expected =>
      let installed := publishInstall base expected (.live ⟨version,etag,s.fresh,now⟩) s.cell
      (s.install installed).setPublisher publisher (if installed.isSome then .idle else .refused version)
    | _ => s
  | .publishDrop publisher => match s.publishers publisher with
    | .refused _ => (s.install (some (.fence s.fresh))).setPublisher publisher .idle
    | _ => s
  | .abandon reader publisher => (s.setReader reader .idle).setPublisher publisher .idle
  | .drop => s.install (some (.fence s.fresh))
  | .evict token => s.install (s.cell.replaceToken token (.fence s.fresh))

def run (s : State Tag) (events : List (Event Tag)) : State Tag := events.foldl (step etags) s

def publishReturns (s : State Tag) : Event Tag → Option Nat
  | .publish publisher now => match s.publishers publisher with
    | .committed base version etag expected =>
      if (publishInstall base expected (.live ⟨version,etag,s.fresh,now⟩) s.cell).isSome then some version
      else none
    | _ => none
  | .publishDrop publisher => match s.publishers publisher with
    | .refused version => some version
    | _ => none
  | _ => none

end Steps

def Held (fresh : Nat) (token : Option Nat) : Prop := ∀ t, token = some t → t < fresh

def ReaderFits (floor current fresh : Nat) (generation : Option Nat) : Reader Tag → Prop
  | .idle => True
  | .snapped _ token => Held fresh token
  | .unchanged token => Held fresh token
  | .fetched version _ token =>
    Held fresh token ∧ version ≤ current ∧ (generation = token → floor ≤ version)
  | .touching entry => entry.token < fresh ∧ (generation = some entry.token → entry.version = floor)

def PublisherFits (floor current fresh : Nat) (generation : Option Nat) : Publisher Tag → Prop
  | .idle => True
  | .based base => Held fresh base.token
  | .committed base version _ _ =>
    Held fresh base.token ∧ version ≤ current ∧ (generation = base.token → floor ≤ version)
  | .refused version => version ≤ current

/-- What the table keeps at every point: `floor` is the newest version it ever served or
acknowledged, and whoever still holds the current generation has seen at least that. -/
structure Settled (floor : Nat) (s : State Tag) : Prop where
  behind : floor ≤ s.current
  served : ∀ entry, s.cell = .live entry → entry.version = floor
  minted : Held s.fresh s.cell.token
  readers : ∀ id, ReaderFits floor s.current s.fresh s.cell.token (s.readers id)
  publishers : ∀ id, PublisherFits floor s.current s.fresh s.cell.token (s.publishers id)

variable {fresh floor current : Nat} {token generation : Option Nat}

theorem heldLater {later} (held : Held fresh token) (le : fresh ≤ later) : Held later token :=
  fun t eq => Nat.lt_of_lt_of_le (held t eq) le

theorem readerLater {current' fresh'} {reader : Reader Tag} (fits : ReaderFits floor current fresh generation reader)
    (grown : current ≤ current') (minted : fresh ≤ fresh') :
    ReaderFits floor current' fresh' generation reader := by
  cases reader with
  | idle => trivial
  | snapped _ _ | unchanged _ => exact heldLater fits minted
  | fetched version etag token =>
    exact ⟨heldLater fits.1 minted,Nat.le_trans fits.2.1 grown,fits.2.2⟩
  | touching entry => exact ⟨Nat.lt_of_lt_of_le fits.1 minted,fits.2⟩

theorem publisherLater {current' fresh'}
    {publisher : Publisher Tag} (fits : PublisherFits floor current fresh generation publisher)
    (grown : current ≤ current') (minted : fresh ≤ fresh') :
    PublisherFits floor current' fresh' generation publisher := by
  cases publisher with
  | idle => trivial
  | based base => exact heldLater fits minted
  | committed base version etag expected =>
    exact ⟨heldLater fits.1 minted,Nat.le_trans fits.2.1 grown,fits.2.2⟩
  | refused version => exact Nat.le_trans fits grown

theorem heldNeFresh (held : Held fresh token) : some fresh ≠ token := by
  intro eq
  exact Nat.lt_irrefl fresh (held fresh eq.symm)

theorem readerRenewed {reader : Reader Tag} (fits : ReaderFits floor current fresh generation reader) (next : Nat) :
    ReaderFits next current (fresh+1) (some fresh) reader := by
  cases reader with
  | idle => trivial
  | snapped _ _ | unchanged _ => exact heldLater fits (Nat.le_succ fresh)
  | fetched version etag token =>
    exact ⟨heldLater fits.1 (Nat.le_succ fresh),fits.2.1,fun eq => absurd eq (heldNeFresh fits.1)⟩
  | touching entry =>
    refine ⟨Nat.lt_succ_of_lt fits.1,fun eq => ?_⟩
    have same : fresh = entry.token := Option.some.inj eq
    exact absurd fits.1 (same ▸ Nat.lt_irrefl fresh)

theorem publisherRenewed {publisher : Publisher Tag} (fits : PublisherFits floor current fresh generation publisher)
    (next : Nat) : PublisherFits next current (fresh+1) (some fresh) publisher := by
  cases publisher with
  | idle => trivial
  | based base => exact heldLater fits (Nat.le_succ fresh)
  | committed base version etag expected =>
    exact ⟨heldLater fits.1 (Nat.le_succ fresh),fits.2.1,fun eq => absurd eq (heldNeFresh fits.1)⟩
  | refused version => exact fits

variable {object cell installed : Cell Tag}

theorem snapshotInstallCases (ok : snapshotInstall token object cell = some installed) :
    installed = object ∧ cell.token = token := by
  cases token with
  | none => cases cell <;> simp_all [snapshotInstall,Cell.insertNew,Cell.token]
  | some token =>
    simp only [snapshotInstall,Cell.replaceToken] at ok
    split at ok
    · rename_i same
      exact ⟨(Option.some.inj ok).symm,same⟩
    · contradiction

theorem publishInstallCases [DecidableEq Tag] {base expected}
    (ok : publishInstall base expected object cell = some installed) :
    installed = object ∧ cell.token = base.token := by
  cases base with
  | warm token =>
    cases expected with
    | none => simp [publishInstall] at ok
    | some expected =>
      cases cell <;> simp_all [publishInstall,Cell.replaceWarm,Cell.token,Base.token]
  | cold token =>
    cases token <;> cases cell <;> simp_all [publishInstall,Cell.insertNew,Cell.replaceFence,Cell.token,Base.token]

theorem publicationBaseToken (cell : Cell Tag) : (publicationBase cell).token = cell.token := by
  cases cell <;> rfl

namespace Settled
variable {floor : Nat} {s : State Tag} (h : Settled floor s)
include h

theorem setReader (id : Nat) (reader : Reader Tag) (fits : ReaderFits floor s.current s.fresh s.cell.token reader) :
    Settled floor (s.setReader id reader) := by
  refine { h with readers := fun other => ?_ }
  by_cases eq : other = id
  · subst eq
    simpa [State.setReader] using fits
  · simpa [State.setReader,eq] using h.readers other

theorem setPublisher (id : Nat) (publisher : Publisher Tag)
    (fits : PublisherFits floor s.current s.fresh s.cell.token publisher) :
    Settled floor (s.setPublisher id publisher) := by
  refine { h with publishers := fun other => ?_ }
  by_cases eq : other = id
  · subst eq
    simpa [State.setPublisher] using fits
  · simpa [State.setPublisher,eq] using h.publishers other

theorem stays : ∃ next, floor ≤ next ∧ Settled next s ∧ ∀ version, none = some version → version ≤ next :=
  ⟨floor,Nat.le_refl floor,h,by simp⟩

theorem grow : Settled floor { s with current := s.current+1 } where
  behind := Nat.le_succ_of_le h.behind
  served := h.served
  minted := h.minted
  readers id := readerLater (h.readers id) (Nat.le_succ _) (Nat.le_refl _)
  publishers id := publisherLater (h.publishers id) (Nat.le_succ _) (Nat.le_refl _)

theorem refuse : Settled floor (s.install none) where
  behind := h.behind
  served := h.served
  minted := heldLater h.minted (Nat.le_succ _)
  readers id := readerLater (h.readers id) (Nat.le_refl _) (Nat.le_succ _)
  publishers id := publisherLater (h.publishers id) (Nat.le_refl _) (Nat.le_succ _)

theorem renew (next : Nat) (behind : next ≤ s.current) (cell : Cell Tag) (token : cell.token = some s.fresh)
    (served : ∀ entry, cell = .live entry → entry.version = next) :
    Settled next (s.install (some cell)) where
  behind := behind
  served := served
  minted t eq := by
    have same : s.fresh = t := Option.some.inj (token.symm.trans eq)
    exact same ▸ Nat.lt_succ_self s.fresh
  readers id := by
    have fits := readerRenewed (h.readers id) next
    simpa [State.install,token] using fits
  publishers id := by
    have fits := publisherRenewed (h.publishers id) next
    simpa [State.install,token] using fits

theorem fence (next : Nat) (behind : next ≤ s.current) : Settled next (s.install (some (.fence s.fresh))) :=
  h.renew next behind _ rfl (by simp)

theorem live (next : Nat) (behind : next ≤ s.current) (etag : Tag)
    (now : Int) : Settled next (s.install (some (.live ⟨next,etag,s.fresh,now⟩))) :=
  h.renew next behind _ rfl (by simp)

omit h

theorem startsSettled (current : Nat) : Settled 0 (start current : State Tag) where
  behind := Nat.zero_le current
  served := by simp [start]
  minted := by simp [Held,start,Cell.token]
  readers _ := trivial
  publishers _ := trivial

theorem putSnapshot (h : Settled floor s) {version}
    (behind : version ≤ s.current) (newer : s.cell.token = token → floor ≤ version)
    (etag : Tag) (now : Int) :
    ∃ next, floor ≤ next ∧
      Settled next (s.install (snapshotInstall token (.live ⟨version,etag,s.fresh,now⟩) s.cell)) := by
  cases ok : snapshotInstall token (.live ⟨version,etag,s.fresh,now⟩) s.cell with
  | none => exact ⟨floor,Nat.le_refl floor,h.refuse⟩
  | some installed =>
    obtain ⟨rfl,same⟩ := snapshotInstallCases ok
    exact ⟨version,newer same,h.live version behind etag now⟩

theorem touch (h : Settled floor s) {entry : Entry Tag}
    (current : s.cell.token = some entry.token → entry.version = floor) (now : Int) :
    Settled floor { s with
      cell := (s.cell.replaceToken entry.token (.live { entry with refreshed := now })).getD s.cell } := by
  unfold Cell.replaceToken
  split
  · rename_i same
    have readers := h.readers
    have publishers := h.publishers
    have minted := h.minted
    rw [same] at readers publishers minted
    exact {
      behind := h.behind
      served := fun served eq => by cases eq; exact current same
      minted := minted
      readers := readers
      publishers := publishers }
  · exact h

end Settled

section Preservation
variable [DecidableEq Tag] {etags : Nat → Tag} {floor : Nat} {s : State Tag} (h : Settled floor s)
include h

theorem fetchedFits {entry} (held : Held s.fresh token) :
    ReaderFits floor s.current s.fresh s.cell.token (fetched etags s entry token) := by
  unfold fetched
  cases current etags s with
  | none => trivial
  | some etag =>
    dsimp only
    split
    · exact held
    · exact ⟨held,Nat.le_refl _,fun _ => h.behind⟩

theorem stepSettled (event : Event Tag) : ∃ next, floor ≤ next ∧ Settled next (step etags s event) ∧
      ∀ version, publishReturns s event = some version → version ≤ next := by
  cases event with
  | elsewhere => exact h.grow.stays
  | snapshot id => exact (h.setReader id (.snapped _ _) h.minted).stays
  | token id => exact (h.setReader id (.snapped _ _) h.minted).stays
  | fetch id =>
    have fits := h.readers id
    simp only [step]
    cases held : s.readers id with
    | snapped entry token =>
      rw [held] at fits
      exact (h.setReader id _ (fetchedFits h fits)).stays
    | _ => exact h.stays
  | putSnapshot id now =>
    have fits := h.readers id
    simp only [step]
    cases held : s.readers id with
    | fetched version etag token =>
      rw [held] at fits
      obtain ⟨next,le,settled⟩ := h.putSnapshot fits.2.1 fits.2.2 etag now
      exact ⟨next,le,settled.setReader id .idle trivial,by simp [publishReturns]⟩
    | _ => exact h.stays
  | touchLookup id =>
    simp only [step]
    split
    · rename_i entry _ row
      have minted := h.minted entry.token (by simp [row,Cell.token])
      refine (h.setReader id _ ?_).stays
      split
      · exact ⟨minted,fun _ => h.served entry row⟩
      · trivial
    · exact (h.setReader id .idle trivial).stays
    · exact h.stays
  | touchReplace id now =>
    have fits := h.readers id
    simp only [step]
    cases held : s.readers id with
    | touching entry =>
      rw [held] at fits
      exact ((h.touch fits.2 now).setReader id .idle trivial).stays
    | _ => exact h.stays
  | base id =>
    have fits : Held s.fresh (publicationBase s.cell).token := by
      rw [publicationBaseToken]
      exact h.minted
    exact (h.setPublisher id (.based _) fits).stays
  | write id predecessor expected =>
    have fits := h.publishers id
    simp only [step]
    cases held : s.publishers id with
    | based base =>
      rw [held] at fits
      dsimp only
      split
      · exact (h.grow.setPublisher id (.committed ..) ⟨fits,Nat.le_refl _,fun _ => h.grow.behind⟩).stays
      · exact h.stays
    | _ => exact h.stays
  | readBack id expected =>
    have fits := h.publishers id
    simp only [step]
    split
    · rename_i held _
      rw [held] at fits
      exact (h.setPublisher id (.committed ..) ⟨fits,Nat.le_refl _,fun _ => h.behind⟩).stays
    · exact h.stays
  | publish id now =>
    have fits := h.publishers id
    simp only [step,publishReturns]
    cases held : s.publishers id with
    | committed base version etag expected =>
      rw [held] at fits
      dsimp only
      cases ok : publishInstall base expected (.live ⟨version,etag,s.fresh,now⟩) s.cell with
      | none => exact (h.refuse.setPublisher id (.refused version) fits.2.1).stays
      | some installed =>
        obtain ⟨rfl,same⟩ := publishInstallCases ok
        have settled := h.live version fits.2.1 etag now
        exact ⟨version,fits.2.2 same,settled.setPublisher id .idle trivial,by simp⟩
    | _ => exact h.stays
  | publishDrop id =>
    have fits := h.publishers id
    simp only [step,publishReturns]
    cases held : s.publishers id with
    | refused version =>
      rw [held] at fits
      have settled := h.fence (max floor version) (Nat.max_le.mpr ⟨h.behind,fits⟩)
      refine ⟨_,Nat.le_max_left _ _,settled.setPublisher id .idle trivial,?_⟩
      intro returned eq
      cases eq
      exact Nat.le_max_right floor version
    | _ => exact h.stays
  | abandon reader publisher =>
    exact ((h.setReader reader .idle trivial).setPublisher publisher .idle trivial).stays
  | drop => exact (h.fence floor h.behind).stays
  | evict token =>
    simp only [step,Cell.replaceToken]
    split
    · exact (h.fence floor h.behind).stays
    · exact h.refuse.stays

theorem runSettled (events : List (Event Tag)) : ∃ next, floor ≤ next ∧ Settled next (run etags s events) := by
  induction events generalizing s floor with
  | nil => exact ⟨floor,Nat.le_refl floor,h⟩
  | cons event events ih =>
    obtain ⟨next,le,settled,_⟩ := stepSettled h event
    obtain ⟨last,le',settled'⟩ := ih settled
    exact ⟨last,Nat.le_trans le le',settled'⟩

theorem staleSnapshotRefused {id old etag} (reader : s.readers id = .fetched old etag token) (older : old < floor)
    (now : Int) : (step etags s (.putSnapshot id now)).cell = s.cell := by
  have fits := h.readers id
  rw [reader] at fits
  simp only [step,reader,State.setReader,State.install]
  cases ok : snapshotInstall token (.live ⟨old,etag,s.fresh,now⟩) s.cell with
  | none => rfl
  | some installed =>
    obtain ⟨_,same⟩ := snapshotInstallCases ok
    exact absurd (fits.2.2 same) (Nat.not_le.mpr older)

end Preservation

/-- After `publish` of a version has returned, whatever runs next, the entry the cache serves is
never older than it, drops and evictions in between included; and a reader that fetched an
older version, however long ago, leaves the table as it is. -/
theorem cacheNeverGoesBack [DecidableEq Tag] (etags : Nat → Tag) (current : Nat)
    (before after : List (Event Tag)) (event : Event Tag) (version : Nat)
    (returned : publishReturns (run etags (start current) before) event = some version) :
    let s := run etags (step etags (run etags (start current) before) event) after
    (∀ entry, s.cell.entry = some entry → version ≤ entry.version) ∧
      ∀ reader old etag token now, s.readers reader = .fetched old etag token → old < version →
        (step etags s (.putSnapshot reader now)).cell = s.cell := by
  obtain ⟨floor,_,settled⟩ := runSettled (Settled.startsSettled current) before
  obtain ⟨published,_,settled,acknowledged⟩ := stepSettled settled event
  obtain ⟨last,le,settled⟩ := runSettled settled after
  have reached : version ≤ last := Nat.le_trans (acknowledged version returned) le
  constructor
  · intro entry served
    generalize run etags (step etags (run etags (start current) before) event) after = s at *
    cases row : s.cell with
    | live held =>
      have same : held = entry := by simpa [row,Cell.entry] using served
      have version := settled.served held row
      rw [← same,version]
      exact reached
    | _ => simp [row,Cell.entry] at served
  · intro reader old etag token now held older
    exact staleSnapshotRefused settled held (Nat.lt_of_lt_of_le older reached) now

theorem cacheNeverGoesBackSlowReader : let etags : Nat → Nat := fun version => version
    let before := [.snapshot 0,.fetch 0,.base 0,.write 0 (some 1) (some 1)]
    let after := [.drop,.snapshot 1,.fetch 1,.putSnapshot 1 5]
    let published := run etags (start 1) before
    let s := run etags (step etags published (.publish 0 3)) after
    publishReturns published (.publish 0 3) = some 2 ∧ s.cell = .live ⟨2,2,2,5⟩ ∧
      (step etags s (.putSnapshot 0 9)).cell = s.cell := by
  intro etags before after published s
  have returned : publishReturns published (.publish 0 3) = some 2 := by decide
  obtain ⟨_,slow⟩ := cacheNeverGoesBack etags 1 before after (.publish 0 3) 2 returned
  exact ⟨returned,by decide,slow 0 1 1 none 9 rfl (by decide)⟩

end Pulso.ManifestCache
