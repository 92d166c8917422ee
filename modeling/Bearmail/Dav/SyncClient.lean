import Bearmail.Dav.Propfind
import Bearmail.Sync.Objects
import Bearmail.Lib.Runs

/-!
# A client of sync-collection

A client has the members of one collection, as they were reported to it, and the last sync token. It
starts with a report without a token. In between anything may be committed, the log may be cut and
the cache may be lost.

A commit comes with its entry in the log, the paths that it logs as vanished, and the resources and
rights behind it.
-/

namespace Bearmail.Dav

open Sync
open Jmap (CacheIds)

structure Client where
  members : Path → Option Resource
  syncToken : Option SyncToken
  /-- whether the last response was marked as limited -/
  limited : Bool

/-- What is gone is dropped with everything below it, then the items are taken over. -/
def Client.apply (client : Client) (response : Response) : Client where
  members := fun path =>
    match response.items.find? fun resource => decide (resource.path = path) with
    | some resource => some resource
    | none =>
      if response.removed.any fun removed => removed.isPrefixOf path then none
      else client.members path
  syncToken := some response.syncToken
  limited := response.limited

/-- A document has no property changes in these logs. -/
structure Commit where
  entry : LogEntry
  vanished : List Path
  resources : List Resource
  readable : Option (List Nat)
  distinct : entry.Distinct
  noProperties : entry.containerPropertyChanges = []
  paths : (resources.map Resource.path).Nodup

structure World where
  log : Log
  vanishedLog : VanishedLog
  /-- all commits, and all paths that have vanished, also those that are no longer in the logs -/
  history : History
  gone : VanishedLog
  resources : List Resource
  readable : Option (List Nat)
  cache : Option CacheIds
  client : Client

def World.new (readable : Option (List Nat)) : World where
  log := []
  vanishedLog := []
  history := []
  gone := []
  resources := []
  readable
  cache := none
  client := ⟨fun _ => none, none, false⟩

inductive Label where
  | commit (changeId : Nat) (commit : Commit)
  | deleteChanges (maxEntries : Nat)
  | evict
  | fetch
  /-- a report without a token -/
  | initial (limit : Nat)
  /-- a report since the last token -/
  | sync (limit : Nat)

section World

variable (collection : Collection) (query : DavQuery) (maxResults : Nat) (w : World)

def World.fetched : CacheIds := CacheIds.fetch .resources w.log w.cache

def World.display : Display := .ofReader collection w.resources w.readable

/-- The members of the collection that the client may see. -/
def World.members : List Resource := found collection query (w.display collection) w.resources

def World.memberAt (path : Path) : Option Resource :=
  (w.members collection query).find? fun resource => decide (resource.path = path)

def World.changeSet (id : Nat) : ChangeSet :=
  Dav.changeSet collection (w.display collection) w.log w.vanishedLog id

def World.initialResponse (limit : Nat) : Response :=
  initialReport collection query w.resources w.readable w.fetched (min limit maxResults)

def World.syncResponse (token : SyncToken) (limit : Nat) : Response :=
  syncReport collection query w.resources w.readable w.log w.vanishedLog w.fetched token
    (min limit maxResults)

def World.commit (changeId : Nat) (commit : Commit) : World :=
  { w with
    log := w.log ++ [(changeId, some commit.entry)]
    vanishedLog := w.vanishedLog ++ [(changeId, commit.vanished)]
    history := w.history ++ [(changeId, commit.entry)]
    gone := w.gone ++ [(changeId, commit.vanished)]
    resources := commit.resources
    readable := commit.readable }

def World.step : Label → Option World
  | .commit changeId commit =>
    if 0 < changeId ∧ ∀ earlier ∈ w.history, earlier.1 < changeId then
      some (w.commit changeId commit)
    else none
  | .deleteChanges maxEntries =>
    some { w with
      log := w.log.deleteChanges maxEntries
      vanishedLog := w.vanishedLog.deleteChanges w.log maxEntries }
  | .evict => some { w with cache := none }
  | .fetch => some { w with cache := some w.fetched }
  | .initial limit =>
    let client : Client := ⟨fun _ => none, none, false⟩
    some { w with
      cache := some w.fetched
      client := client.apply (w.initialResponse collection query maxResults limit) }
  | .sync limit =>
    match w.client.syncToken with
    | none => none
    | some token =>
      some { w with
        cache := some w.fetched
        client := w.client.apply (w.syncResponse collection query maxResults token limit) }

end World

/-- The client has the members that it may see, with their content. -/
def InSync (collection : Collection) (query : DavQuery) (w : World) : Prop :=
  ∀ path, w.client.members path = w.memberAt collection query path

end Bearmail.Dav
