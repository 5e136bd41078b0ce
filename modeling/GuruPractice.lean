import GuruPractice.Transition.Run
import GuruPractice.Transition.Block
import GuruPractice.Transition.Ledger
import GuruPractice.Storage.ManagedContext
import GuruPractice.Storage.ListView
import GuruPractice.Storage.ListMove
import GuruPractice.Storage.ListModify
import GuruPractice.Storage.AutoincrementTable
import GuruPractice.Text.PrefixCode
import GuruPractice.Text.Lines
import GuruPractice.Sampling.WithoutReplacement
import GuruPractice.MemoApp.NoteScreens
import GuruPractice.MemoApp.NoteListLoads
import GuruPractice.MemoApp.MemoListRefinement
import GuruPractice.MemoApp.FailedSaves
import GuruPractice.MemoApp.NoteIds
import GuruPractice.MemoApp.DetailScreen
import GuruPractice.MemoApp.RepeatedPresses
import GuruPractice.TableViewExample.MemoTable
import GuruPractice.TableViewExample.CrashSafety
import GuruPractice.TableViewExample.CommittedActions
import GuruPractice.TableViewExample.MoveRow
import GuruPractice.TableViewExample.NonemptyMemos
import GuruPractice.LottoDraw.LottoScreen
import GuruPractice.LottoDraw.SaveTickets
import GuruPractice.LottoDraw.LoadTickets
import GuruPractice.LottoDraw.ShownTickets
import GuruPractice.LottoDraw.FirstLaunch
import GuruPractice.LottoDraw.DrawTickets
import GuruPractice.FireStorageBasic.StoragePath
import GuruPractice.FireStorageBasic.ImageUploads
import GuruPractice.SendMessage.MessageText
import GuruPractice.SendMessage.LineBreaks
import GuruPractice.SendMessage.Deletions
import GuruPractice.AlamofireExample.ImageDownloader
import GuruPractice.AlamofireExample.DownloadLedger
import GuruPractice.AlamofireExample.DownloadQueue
import GuruPractice.AlamofireExample.DownloadCompletions
import GuruPractice.AlamofireExample.DownloadedImages
import GuruPractice.AlamofireExample.ImageCache
import GuruPractice.AlamofireExample.PersonList
import GuruPractice.Storage.SortedEntries
import GuruPractice.FirebaseDatabase.LLRBNode
import GuruPractice.FirebaseDatabase.LLRBBalance
import GuruPractice.FirebaseDatabase.LLRBRemoval
import GuruPractice.FirebaseDatabase.TreeBuilder
import GuruPractice.FirebaseDatabase.SortedDictionary
import GuruPractice.FirebaseDatabase.DictionaryChanges
import GuruPractice.FirebaseDatabase.KeyEnumerators
