import ChunkRelay.Command.Report

/-! The commands of the program, each run on a disk and reported in full. -/
namespace ChunkRelay

/-- What a run of the program starts from. -/
structure Host where
  env : Environment
  disk : Disk
  /-- A seed for a new key that no one can guess. -/
  seed : Bytes
  /-- What tells this run's part files from those of others. -/
  owner : Nat

namespace Command

def runHash (host : Host) (o : Options) (file : String) : Report × Disk :=
  let (settings, d) := Settings.prepare host.env host.disk
  let blockSize := o.blockSize.getD settings.blockSize
  match Disk.chunkHashes d file blockSize with
  | .error e => (.ofResult [] (.error (.file e)), d)
  | .ok hashes => (.ofResult (Report.hashLines file blockSize hashes) (.ok ()), d)

def runPack (host : Host) (o : Options) (file out : String) : Report × Disk :=
  let (settings, d) := Settings.prepare host.env host.disk
  match ChunkRelay.pack settings o d file out with
  | (.error e, d) => (.ofResult [] (.error e), d)
  | (.ok p, d) => (.ofResult (Report.packLines file out p) (.ok ()), d)

def runUnpack (host : Host) (input dir : String) : Report × Disk :=
  let (settings, d) := Settings.prepare host.env host.disk
  let (result, arrivals, d) := ChunkRelay.unpack settings.threshold host.owner d input dir
  (.ofResult (Report.unpackLines dir arrivals result.toBool) result, d)

def runIdentity (host : Host) (name keyPath : String) : Report × Disk :=
  match Identity.generate name host.seed (⟨host.disk, keyPath⟩ : FileKeyRing) with
  | (.error e, ring) => (.ofResult [] (.error (.identity e)), ring.disk)
  | (.ok i, ring) =>
    match KeyRing.secretKey i.fingerprint ring with
    | .error e => (.ofResult [] (.error (.lostSecret keyPath e)), ring.disk)
    | .ok _ => (.ofResult (Report.identityLines i keyPath) (.ok ()), ring.disk)

def run (host : Host) (o : Options) : Command → Report × Disk
  | .hash file => runHash host o file
  | .pack file out => runPack host o file out
  | .unpack input dir => runUnpack host input dir
  | .identity name keyPath => runIdentity host name keyPath
  | .usage => (.usage, host.disk)
  | .unknown words => (.unknown words, host.disk)

/-- Runs the program on its arguments. -/
def runArgs (host : Host) (args : List String) : Report × Disk :=
  match Options.read args with
  | .error e => (.ofResult [] (.error e), host.disk)
  | .ok o => run host o (ofWords o.words)

end Command
end ChunkRelay
