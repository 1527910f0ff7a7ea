import DurableCache.Engine

/-!
# Jobs

Jobs begin in the order of their arrival, as soon as a worker is idle. A job whose lookup
finds a fresh value is done at once; another one stays inside its fetch until it is let go.
-/

namespace DurableCache

/-- How far a job has come. -/
inductive Progress where
  /-- It waits for a worker. -/
  | queued
  /-- It is inside its fetch. -/
  | fetching
  /-- It has delivered. -/
  | done (value : Option String)
  /-- It was abandoned before it could deliver. -/
  | abandoned (why : Abort)
  deriving DecidableEq, Repr

namespace Engine

variable {σ : Type}

/-- Gives a job a worker. -/
def beginJob (e : Engine σ) (now : Timestamp) (job : Job) : Progress × Engine σ :=
  match e.cache.beginPopulation now job.key with
  | (.error why, cache) => (.abandoned why, { e with cache })
  | (.ok (some value), cache) => (.done (some value), { e with cache })
  | (.ok none, cache) =>
    (.fetching,
      { e with cache, workers := { e.workers with fetching := e.workers.fetching ++ [job] } })

/-- Takes a new job: it begins if a worker is free and waits otherwise. -/
def startJob (e : Engine σ) (now : Timestamp) (job : Job) : Progress × Engine σ :=
  if e.workers.free = 0 then
    (.queued, { e with workers := { e.workers with queued := e.workers.queued ++ [job] } })
  else e.beginJob now job

/-- Begins the waiting jobs, in order, as long as a worker is idle; answers the jobs that
have begun. -/
def advanceJobs (e : Engine σ) (now : Timestamp) : List Job → List (Job × Progress) × Engine σ
  | [] => ([], { e with workers := { e.workers with queued := [] } })
  | job :: waiting =>
    if e.workers.idle = 0 then
      ([], { e with workers := { e.workers with queued := job :: waiting } })
    else
      let (progress, e) := e.beginJob now job
      let (begun, e) := advanceJobs e now waiting
      ((job, progress) :: begun, e)

/-- What letting a fetch go leads to. -/
structure Release where
  /-- What the job delivers, unless it was abandoned. -/
  result : Except Abort (Option String)
  /-- The waiting jobs that have begun. -/
  begun : List (Job × Progress)
  /-- The time at which the fetch came back. -/
  returned : Timestamp

/-- Lets the fetch of a job go; nothing if no job of that name is inside its fetch. -/
def releaseJob (e : Engine σ) (now : Timestamp) (id : String) : Option Release × Engine σ :=
  match e.workers.fetching.find? fun job => job.id == id with
  | none => (none, e)
  | some job =>
    let returned := now + job.duration
    let (result, cache) :=
      e.cache.finishPopulation returned job.key job.timeToLive (job.fetch job.key)
    let fetching := e.workers.fetching.eraseP fun job => job.id == id
    let e := { e with cache, workers := { e.workers with fetching } }
    let (begun, e) := e.advanceJobs returned e.workers.queued
    (some ⟨result, begun, returned⟩, e)

/-- Lets the load go and begins the waiting jobs. -/
def releaseLoad [BlobStore σ] (e : Engine σ) (now : Timestamp) :
    List (Job × Progress) × Engine σ :=
  if e.workers.loading then
    let (_, e) := e.runLoad now
    e.advanceJobs now e.workers.queued
  else ([], e)

end Engine

end DurableCache
