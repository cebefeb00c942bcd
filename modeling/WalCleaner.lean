import WalCleaner.GoPath
import WalCleaner.WindowsPath
import WalCleaner.Fs
import WalCleaner.GetAllStorage
import WalCleaner.Strconv
import WalCleaner.Segments
import WalCleaner.Abandoned
import WalCleaner.Scheduler
import WalCleaner.WalLayout
import WalCleaner.Lifecycle
import WalCleaner.Facade
