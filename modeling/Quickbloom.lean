import Quickbloom.Classic.Membership
import Quickbloom.Filter.Fuzz
import Quickbloom.Filter.OneWriter
import Quickbloom.Filter.Races
import Quickbloom.Filter.Reads
import Quickbloom.Filter.Resize
import Quickbloom.Filter.Spread
import Quickbloom.Fuse.Runs
import Quickbloom.Impala.Runs
import Quickbloom.Impala.Units
import Quickbloom.Krassovsky.Runs
